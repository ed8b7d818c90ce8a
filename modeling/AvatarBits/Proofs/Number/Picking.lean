import AvatarBits.Proofs.Number.Numerals
import AvatarBits.Proofs.Number.Rounding
import Mathlib.Algebra.Group.Nat.Defs

/-!
# Which digits are picked

The digits of a number are a point of a grid of powers of ten, the coarsest that
has a point in the number's interval. Of the two points around the number the
nearer is taken, or the only one inside. So the point that is taken is less than
one step of the grid beyond either end and, where the interval is wider, less
than half a step off.

Counts are in quarter units, as the ends of an interval are.

* `Inside`: a point lies in the interval of a number.
* `Taken`: what is known of a point that is taken.

Results:
* `onGrid?_taken`: a point that is taken, on any grid.
* `shortest_single`: every positive single number has a point on one of the grids that are tried,
  with digits short enough to be read exactly.
-/
namespace AvatarBits

/-! Powers are those of the core library here, whatever else is imported. -/
attribute [local instance (2000)] instPowNat

namespace Format

variable {f : Format} {u : Nat}

/-- Numerator of a power of ten, in quarter units. -/
def gridNum (f : Format) (k : Int) : Nat := 10 ^ k.toNat * 2 ^ (f.scale + 2)

/-- Denominator of a power of ten. -/
def gridDen (k : Int) : Nat := 10 ^ (-k).toNat

theorem gridNum_pos (f : Format) (k : Int) : 0 < f.gridNum k :=
  Nat.mul_pos (Nat.pow_pos (by decide)) (Nat.two_pow_pos _)

theorem gridDen_pos (k : Int) : 0 < gridDen k := Nat.pow_pos (by decide)

/-- A multiple of `num / den` quarter units lies in the interval of a count. -/
def Inside (f : Format) (u num den d : Nat) : Prop :=
  f.low u * den < d * num ∧ d * num < f.high u * den
    ∨ u / f.step u % 2 = 0 ∧ f.low u * den ≤ d * num ∧ d * num ≤ f.high u * den

instance (num den d : Nat) : Decidable (f.Inside u num den d) :=
  inferInstanceAs (Decidable (_ ∨ _))

/-- Of two neighbours, the nearer is taken if both are inside. -/
def pick (inside : Nat → Prop) [DecidablePred inside] (nearer : Prop) [Decidable nearer] (d : Nat) :
    Option Nat :=
  if inside d ∧ inside (d + 1) then if nearer then some d else some (d + 1)
  else if inside d then some d
  else if inside (d + 1) then some (d + 1)
  else none

/-- The point of a grid that is taken, with the ends of the interval by name. -/
theorem onGrid?_eq (f : Format) (u : Nat) (k : Int) {num den d : Nat} (hnum : num = f.gridNum k)
    (hden : den = gridDen k) (hd : d = 4 * u * den / num) :
    f.onGrid? u k = pick (f.Inside u num den)
      (4 * u * den - d * num < (d + 1) * num - 4 * u * den
        ∨ 4 * u * den - d * num = (d + 1) * num - 4 * u * den ∧ d % 2 = 0) d := by
  unfold onGrid?
  extract_lets s narrow low high even point den' inside d' below above
  have hpoint : point = num := by
    rw [hnum]
    unfold point gridNum
    split
    · rw [show k.natAbs = k.toNat by omega]
    · rw [show k.toNat = 0 by omega, Nat.pow_zero, Nat.one_mul]
  have hden' : den' = den := by
    rw [hden]
    unfold den' gridDen
    split
    · rw [show (-k).toNat = 0 by omega, Nat.pow_zero]
    · rw [show k.natAbs = (-k).toNat by omega]
  have hlow : low = f.low u := by
    have hnarrow : narrow = decide (f.Narrow u) := by
      rw [Bool.eq_iff_iff, decide_eq_true_eq]
      simp [narrow, Narrow, s]
    simp [low, Format.low, hnarrow, s]
  have hhigh : high = f.high u := rfl
  have hinside : ∀ x, inside x = decide (f.Inside u num den x) := by
    intro x
    rw [Bool.eq_iff_iff, decide_eq_true_eq]
    unfold inside Inside
    rw [hlow, hhigh, hpoint, hden']
    have heven : even = true ↔ u / f.step u % 2 = 0 := beq_iff_eq
    by_cases he : u / f.step u % 2 = 0
    · rw [if_pos (heven.2 he)]
      simp only [Bool.and_eq_true, decide_eq_true_eq, he, true_and]
      omega
    · rw [if_neg (mt heven.1 he)]
      simp only [Bool.and_eq_true, decide_eq_true_eq, he, false_and, or_false]
  have hd' : d' = d := by rw [hd, ← hpoint, ← hden']
  unfold below above pick
  simp only [hinside, hd', hpoint, hden', Bool.and_eq_true, Bool.or_eq_true, decide_eq_true_eq,
    beq_iff_eq]

/-- What is taken is inside, and if it is not the nearer of the two the other is not inside. -/
theorem pick_eq_some {inside : Nat → Prop} [DecidablePred inside] {nearer : Prop} [Decidable nearer]
    {d e : Nat} (h : pick inside nearer d = some e) : inside e
      ∧ (e = d ∧ (nearer ∨ ¬ inside (d + 1)) ∨ e = d + 1 ∧ (¬ nearer ∨ ¬ inside d)) := by
  unfold pick at h
  split at h
  · split at h <;> cases h <;> simp_all
  · split at h
    · cases h
      simp_all
    · split at h <;> cases h
      simp_all

/-- A point that is taken is inside, not much beyond the number, and not much short of it. -/
structure Taken (f : Format) (u num den d : Nat) : Prop where
  inside : f.Inside u num den d
  not_above : 2 * (d * num) ≤ 2 * (4 * u * den) + num ∨ d * num ≤ f.low u * den + num
  not_below : 2 * (4 * u * den) ≤ 2 * (d * num) + num ∨ f.high u * den ≤ d * num + num

theorem low_le (f : Format) (u : Nat) : f.low u ≤ 4 * u := by
  unfold low
  split <;> omega

theorem lt_high (f : Format) (u : Nat) : 4 * u < f.high u := by
  have := f.step_pos u
  unfold high
  omega

/-- The lower end is a gap away at least. -/
theorem low_mul_le (hu : 0 < u) (den : Nat) :
    f.low u * den + f.step u * den ≤ 4 * u * den := by
  rw [← Nat.add_mul]
  have := step_le_self (f := f) hu
  unfold low
  refine Nat.mul_le_mul_right _ ?_
  split <;> omega

/-- The upper end is two gaps away. -/
theorem high_mul (f : Format) (u den : Nat) :
    f.high u * den = 4 * u * den + 2 * (f.step u * den) := by
  rw [high, Nat.add_mul, Nat.mul_assoc 2]

/-- The point of a grid that is taken. -/
theorem onGrid?_taken {k : Int} {e : Nat} (h : f.onGrid? u k = some e) :
    f.Taken u (f.gridNum k) (gridDen k) e := by
  rw [onGrid?_eq f u k rfl rfl rfl] at h
  have hnum := f.gridNum_pos k
  have hlow := Nat.mul_le_mul_right (gridDen k) (f.low_le u)
  have hhigh := Nat.mul_lt_mul_of_pos_right (f.lt_high u) (gridDen_pos k)
  generalize f.gridNum k = num at *
  generalize gridDen k = den at *
  obtain ⟨hin, hpick⟩ := pick_eq_some h
  have hd := Nat.div_mul_le_self (4 * u * den) num
  have hd' : 4 * u * den < (4 * u * den / num + 1) * num :=
    Nat.mul_comm num _ ▸ Nat.lt_mul_div_succ (4 * u * den) hnum
  generalize 4 * u * den / num = d at *
  -- the neighbour that is not taken is beyond an end if it is not as far
  have hout : ∀ x, ¬ f.Inside u num den x → x * num ≤ f.low u * den ∨ f.high u * den ≤ x * num := by
    intro x hx
    unfold Inside at hx
    omega
  rw [Nat.add_mul, Nat.one_mul] at hd' hpick
  rcases hpick with ⟨rfl, hn | hn⟩ | ⟨rfl, hn | hn⟩
  · exact ⟨hin, by omega, by omega⟩
  · have := hout _ hn
    rw [Nat.add_mul, Nat.one_mul] at this
    exact ⟨hin, by omega, by omega⟩
  · refine ⟨hin, ?_, ?_⟩ <;> rw [Nat.add_mul, Nat.one_mul] <;> omega
  · have := hout _ hn
    refine ⟨hin, ?_, ?_⟩ <;> rw [Nat.add_mul, Nat.one_mul] <;> omega

/-- A grid that is not coarser than the gap has a point in the interval. -/
theorem onGrid?_ne_none {k : Int} (hu : 0 < u) (hfine : f.gridNum k ≤ f.step u * gridDen k) :
    f.onGrid? u k ≠ none := by
  rw [onGrid?_eq f u k rfl rfl rfl]
  have hnum := f.gridNum_pos k
  have hden := gridDen_pos k
  have hs := Nat.mul_pos (f.step_pos u) hden
  have hlow := low_mul_le (f := f) hu (gridDen k)
  have hhigh := f.high_mul u (gridDen k)
  generalize f.gridNum k = num at *
  have hd := Nat.div_mul_le_self (4 * u * gridDen k) num
  have hd' : 4 * u * gridDen k < (4 * u * gridDen k / num + 1) * num :=
    Nat.mul_comm num _ ▸ Nat.lt_mul_div_succ (4 * u * gridDen k) hnum
  rw [Nat.add_mul, Nat.one_mul] at hd'
  have hin : f.Inside u num (gridDen k) (4 * u * gridDen k / num) := .inl ⟨by omega, by omega⟩
  unfold pick
  split
  · split <;> nofun
  · nofun

/-- A finer grid has more points below a number. -/
theorem gridNum_mul_le (f : Format) {j k : Int} (h : j ≤ k) :
    f.gridNum j * gridDen k ≤ f.gridNum k * gridDen j := by
  unfold gridNum gridDen
  rw [Nat.mul_right_comm, ← Nat.pow_add, Nat.mul_right_comm, ← Nat.pow_add]
  exact Nat.mul_le_mul_right _ (Nat.pow_le_pow_right (by decide) (by omega))

/-- A magnitude of some length has an interval below a power of two. -/
theorem high_le (hfits : f.step u ∣ u) : f.high u ≤ 2 ^ (u.log2 + 3) := by
  have := add_step_le hfits
  rw [show u.log2 + 3 = u.log2 + 1 + 2 by omega, Nat.pow_add]
  unfold high
  omega

/-! ## Shortest digits of single numbers -/

/-- The finest grid that is tried for a length. -/
def finest (l : Nat) : Int := decimalsAbove (l + 1) - 59

theorem mem_grids {k : Int} :
    k ∈ Format.single.grids u ↔ finest u.log2 ≤ k ∧ k ≤ finest u.log2 + 15 := by
  have hmem : k ∈ Format.single.grids u
      ↔ ∃ i : Nat, i < 16 ∧ ((decimalsAbove (u.log2 + 1) : Int) - 44) - i = k := by
    unfold grids
    rw [List.mem_map]
    simp only [List.mem_range]
    rfl
  rw [hmem]
  unfold finest
  constructor
  · rintro ⟨i, hi, rfl⟩
    omega
  · rintro ⟨h1, h2⟩
    exact ⟨(decimalsAbove (u.log2 + 1) - 44 - k).toNat, by omega, by omega⟩

/-- For every length the finest grid has a point in an interval, and is coarse enough for short
digits. -/
theorem finest_spec : ∀ l < 277,
    Format.single.gridNum (finest l) ≤ 2 ^ (l + 1 - 24) * gridDen (finest l)
      ∧ 2 ^ (l + 3) * gridDen (finest l) < 2 ^ 53 * Format.single.gridNum (finest l) := by
  decide +kernel

theorem two_pow_le_mul {n s t : Nat} (h : n ≤ s + t) : 2 ^ n ≤ 2 ^ s * 2 ^ t := by
  rw [← Nat.pow_add]
  exact Nat.pow_le_pow_right (by decide) h

/-- Powers of ten beyond the range. -/
theorem le_of_gridNum_le {k : Int} {l : Nat} (hl : l < 277)
    (h : Format.single.gridNum k ≤ 2 ^ (l + 3) * gridDen k) : k ≤ 38 := by
  refine Int.not_lt.1 fun hk => ?_
  have hden : gridDen k = 1 := by rw [gridDen, show (-k).toNat = 0 by omega, Nat.pow_zero]
  have hlt : 2 ^ (l + 3) ≤ 2 ^ 128 * 2 ^ 151 := two_pow_le_mul (by omega)
  rw [hden, Nat.mul_one] at h
  have hten : 10 ^ k.toNat ≤ 2 ^ 128 :=
    Nat.le_of_mul_le_mul_right (Nat.le_trans h hlt) (Nat.two_pow_pos 151)
  have hbig : 10 ^ 39 ≤ 10 ^ k.toNat := Nat.pow_le_pow_right (by decide) (by omega)
  omega

/-- Digits on a grid that is not finer than the finest. -/
theorem lt_of_gridNum_le {k : Int} {l d : Nat} (hl : l < 277) (hk : finest l ≤ k)
    (h : d * Format.single.gridNum k ≤ 2 ^ (l + 3) * gridDen k) : d < 2 ^ 53 := by
  have hfinest := (finest_spec l hl).2
  have hmono := Nat.mul_le_mul_left d (Format.single.gridNum_mul_le hk)
  have hle := Nat.mul_le_mul_right (gridDen (finest l)) h
  generalize Format.single.gridNum (finest l) = num' at *
  generalize gridDen (finest l) = den' at *
  have hden := gridDen_pos k
  have hlt : d * num' * gridDen k < 2 ^ 53 * num' * gridDen k :=
    calc d * num' * gridDen k
        ≤ d * Format.single.gridNum k * den' := by rwa [Nat.mul_assoc, Nat.mul_assoc]
      _ ≤ 2 ^ (l + 3) * gridDen k * den' := hle
      _ = 2 ^ (l + 3) * den' * gridDen k := Nat.mul_right_comm ..
      _ < 2 ^ 53 * num' * gridDen k := Nat.mul_lt_mul_of_pos_right hfinest hden
  exact Nat.lt_of_mul_lt_mul_right (Nat.lt_of_mul_lt_mul_right hlt)

/-- **Shortest digits.** Every positive single number has digits of eight bytes on one of the grids
that are tried. -/
theorem shortest_single (hu : 0 < u) (hfits : Format.single.Fits u) :
    ∃ d k, Format.single.shortest u = (d, k)
      ∧ Format.single.Taken u (Format.single.gridNum k) (gridDen k) d
      ∧ 0 < d ∧ d < 2 ^ 53 ∧ -58 ≤ k ∧ k ≤ 38 := by
  have hl : u.log2 < Format.single.top := (Nat.log2_lt (by omega)).2 hfits.1
  obtain ⟨hfine, hcoarse⟩ := finest_spec _ hl
  -- some grid has a point
  have hne : ((Format.single.grids u).findSome? fun k =>
      (Format.single.onGrid? u k).map (·, k)) ≠ none := by
    intro h
    rw [List.findSome?_eq_none_iff] at h
    have := h _ (mem_grids.2 ⟨Int.le_refl (finest u.log2), by omega⟩)
    exact onGrid?_ne_none hu hfine (Option.map_eq_none_iff.1 this)
  obtain ⟨⟨d, k⟩, hr⟩ := Option.ne_none_iff_exists'.1 hne
  obtain ⟨k', hk, hd⟩ := List.exists_of_findSome?_eq_some hr
  obtain ⟨d', hd', he⟩ := Option.map_eq_some_iff.1 hd
  obtain ⟨rfl, rfl⟩ := Prod.mk.inj he
  have htaken := onGrid?_taken hd'
  have hpos := onGrid?_pos hu hd'
  obtain ⟨hk1, hk2⟩ := mem_grids.1 hk
  have hin : d' * Format.single.gridNum k' ≤ 2 ^ (u.log2 + 3) * gridDen k' := by
    have := Nat.mul_le_mul_right (gridDen k') (high_le hfits.2)
    have := htaken.inside
    unfold Inside at this
    omega
  refine ⟨d', k', by rw [shortest, hr]; rfl, htaken, hpos, ?_, ?_, ?_⟩
  · exact lt_of_gridNum_le hl hk1 hin
  · unfold finest decimalsAbove at hk1
    omega
  · exact le_of_gridNum_le hl (Nat.le_trans (Nat.le_mul_of_pos_left _ hpos) hin)

end Format

end AvatarBits
