import AvatarBits.Number.Binary

/-!
# Whole numbers among the numbers of an avatar description

`Binary.ofInt` is exact below `2 ^ 24` and keeps everything else at `2 ^ 24` or
beyond, on its side of zero (`units_ofInt_small`, `units_ofInt_big`). So a
comparison of any whole number with a small threshold is decided as if nothing
had been rounded.

Results:
* `lt_ofInt`, `ofInt_lt`, `eqv_ofInt`: a whole number against a small threshold.
* `truncate_ofInt`, `isZero_ofInt`: reading a small whole number back.
* `truncate_mono`: the whole part follows the order of the numbers.
* `truncate_ofInt_truncate`: a whole part is a number of the description, however large.
* `max_truncate_max`: the greater of two numbers has the greater whole part.
-/
namespace AvatarBits

/-! Powers are those of the core library here, whatever else is imported. -/
attribute [local instance (2000)] instPowNat

namespace Format

/-! ## Rounding -/

/-- A count that the format holds is not moved by rounding. -/
theorem roundUnits_of_dvd (f : Format) {m : Nat} (h : f.step m ∣ m) : f.roundUnits m 1 = m := by
  obtain ⟨q, hq⟩ := h
  have hs : 0 < f.step m := Nat.two_pow_pos _
  have h0 : m % f.step m = 0 := by
    simp [Nat.mod_eq_zero_of_dvd ⟨q, hq⟩]
  have hd : roundDiv m (f.step m) = m / f.step m := by
    unfold roundDiv
    rw [if_pos (Or.inl (by omega))]
  unfold roundUnits
  simp only [Nat.div_one, Nat.one_mul]
  rw [hd]
  exact Nat.div_mul_cancel ⟨q, hq⟩

/-- Rounding does not fall below a power of two. -/
theorem two_pow_le_roundUnits (f : Format) {m k : Nat} (h : 2 ^ k ≤ m) :
    2 ^ k ≤ f.roundUnits m 1 := by
  have hp := f.precision_pos
  have hm : m ≠ 0 := by have := Nat.two_pow_pos k; omega
  have hk : k ≤ m.log2 := (Nat.le_log2 hm).2 h
  have hs : f.step m ∣ 2 ^ m.log2 := Nat.pow_dvd_pow 2 (by omega)
  have hlog : 2 ^ m.log2 ≤ m := Nat.log2_self_le hm
  have hdiv : m / f.step m ≤ roundDiv m (f.step m) := by
    unfold roundDiv; split <;> omega
  unfold roundUnits
  simp only [Nat.div_one, Nat.one_mul]
  calc 2 ^ k ≤ 2 ^ m.log2 := Nat.pow_le_pow_right (by decide) hk
    _ = 2 ^ m.log2 / f.step m * f.step m := (Nat.div_mul_cancel hs).symm
    _ ≤ m / f.step m * f.step m := Nat.mul_le_mul_right _ (Nat.div_le_div_right hlog)
    _ ≤ roundDiv m (f.step m) * f.step m := Nat.mul_le_mul_right _ hdiv

/-- A number of fewer bits than the significand, shifted up, has no bits below it. -/
theorem step_dvd_shift (f : Format) {n k : Nat} (h : n < 2 ^ f.precision) :
    f.step (n * 2 ^ k) ∣ n * 2 ^ k := by
  by_cases hn : n = 0
  · subst hn; simp
  · have hk := Nat.two_pow_pos k
    have hne : n * 2 ^ k ≠ 0 := Nat.mul_ne_zero hn (by omega)
    have hlog : (n * 2 ^ k).log2 < f.precision + k := by
      rw [Nat.log2_lt hne, Nat.pow_add]
      exact Nat.mul_lt_mul_of_pos_right h hk
    exact Nat.dvd_trans (Nat.pow_dvd_pow 2 (by omega)) (Nat.dvd_mul_left _ _)

/-- A count of the format that is longer than the significand has no bits below it. -/
theorem two_pow_dvd_of_step_dvd (f : Format) {u k : Nat} (h : f.step u ∣ u)
    (hu : 2 ^ (f.precision + k) ≤ u) : 2 ^ (k + 1) ∣ u := by
  have hne : u ≠ 0 := by have := Nat.two_pow_pos (f.precision + k); omega
  have hlog : f.precision + k ≤ u.log2 := (Nat.le_log2 hne).2 hu
  exact Nat.dvd_trans (Nat.pow_dvd_pow 2 (by omega)) h

end Format

namespace Binary

/-! ## Whole numbers -/

section
variable {f : Format}

/-- Units of one, as an integer. -/
def unit (f : Format) : Int := (2 ^ f.scale : Nat)

theorem unit_pos : 0 < unit f := Int.natCast_pos.2 (Nat.two_pow_pos _)

theorem signed_natAbs (i : Int) : signed (decide (i < 0)) i.natAbs = i := by
  unfold signed
  by_cases h : i < 0
  · rw [decide_eq_true h, if_pos rfl]; omega
  · rw [decide_eq_false h, if_neg Bool.false_ne_true]; omega

theorem signed_mul (s : Bool) (u k : Nat) : signed s (u * k) = signed s u * k := by
  cases s with
  | false => exact Int.natCast_mul u k
  | true => simp only [signed, if_true, Int.natCast_mul, Int.neg_mul]

theorem signed_tdiv (s : Bool) (u k : Nat) : (signed s u).tdiv k = signed s (u / k) := by
  cases s with
  | false => exact (Int.ofNat_tdiv u k).symm
  | true => simp only [signed, if_true, Int.neg_tdiv, Int.ofNat_tdiv]

theorem natAbs_signed (s : Bool) (u : Nat) : (signed s u).natAbs = u := by
  cases s with
  | false => exact Int.natAbs_natCast u
  | true => exact (Int.natAbs_neg _).trans (Int.natAbs_natCast u)

theorem signed_neg_iff {s : Bool} {u : Nat} (hu : 0 < u) : decide (signed s u < 0) = s := by
  cases s with
  | false => exact decide_eq_false (Int.not_lt.2 (Int.natCast_nonneg u))
  | true => exact decide_eq_true (Int.neg_neg_of_pos (Int.natCast_pos.2 hu))

/-- The units of a rounded quotient; beyond the range they stand at its open end. -/
theorem units_ofRatio (s : Bool) (num den : Nat) :
    (ofRatio s num den : Binary f).units? =
      some (signed s (min (f.roundUnits num den) (2 ^ f.top))) := by
  unfold ofRatio
  by_cases h : f.roundUnits num den < 2 ^ f.top
  · simp only [dif_pos h, units?, Nat.min_eq_left (Nat.le_of_lt h)]
  · simp only [dif_neg h, units?, Nat.min_eq_right (Nat.le_of_not_lt h)]

theorem lt_of_units {x y : Binary f} {a b : Int} (hx : x.units? = some a)
    (hy : y.units? = some b) : x.lt y = decide (a < b) := by
  unfold lt; rw [hx, hy]

theorem eqv_of_units {x y : Binary f} {a b : Int} (hx : x.units? = some a)
    (hy : y.units? = some b) : x.eqv y = decide (a = b) := by
  unfold eqv; rw [hx, hy]; rfl

theorem truncate_of_units {x : Binary f} {a : Int} (hx : x.units? = some a) :
    x.truncate = clampWord (a.tdiv (unit f)) := by
  unfold truncate; rw [hx]; rfl

variable (hf : f.precision + f.scale ≤ f.top)
include hf

/-- A whole number that fits the significand is exact. -/
theorem units_ofInt_small {i : Int} (h : i.natAbs < 2 ^ f.precision) :
    (ofInt i : Binary f).units? = some (i * unit f) := by
  have hlt : i.natAbs * 2 ^ f.scale ≤ 2 ^ f.top :=
    calc i.natAbs * 2 ^ f.scale ≤ 2 ^ f.precision * 2 ^ f.scale :=
          Nat.mul_le_mul_right _ (Nat.le_of_lt h)
      _ ≤ 2 ^ f.top := by rw [← Nat.pow_add]; exact Nat.pow_le_pow_right (by decide) hf
  unfold ofInt
  rw [units_ofRatio, f.roundUnits_of_dvd (f.step_dvd_shift h), Nat.min_eq_left hlt, signed_mul,
    signed_natAbs]
  rfl

/-- A whole number beyond the significand stays beyond it, on its side of zero. -/
theorem units_ofInt_big {i : Int} (h : 2 ^ f.precision ≤ i.natAbs) :
    ∃ u : Nat, 2 ^ f.precision * 2 ^ f.scale ≤ u ∧
      (ofInt i : Binary f).units? = some (signed (i < 0) u) := by
  refine ⟨_, ?_, units_ofRatio ..⟩
  rw [← Nat.pow_add]
  refine Nat.le_min.2 ⟨f.two_pow_le_roundUnits ?_, Nat.pow_le_pow_right (by decide) hf⟩
  rw [Nat.pow_add]
  exact Nat.mul_le_mul_right _ h

/-- Where a whole number lies, for comparison with a threshold that fits the significand. -/
theorem units_ofInt (v : Int) : ∃ a, (ofInt v : Binary f).units? = some a ∧
    ∀ t : Int, t.natAbs < 2 ^ f.precision →
      (t * unit f < a ↔ t < v) ∧ (a < t * unit f ↔ v < t) := by
  have hK := unit_pos (f := f)
  by_cases h : v.natAbs < 2 ^ f.precision
  · refine ⟨_, units_ofInt_small hf h, ?_⟩
    intro t _
    exact ⟨Int.mul_lt_mul_right hK, Int.mul_lt_mul_right hK⟩
  · obtain ⟨u, hu, he⟩ := units_ofInt_big hf (Nat.le_of_not_lt h)
    refine ⟨_, he, ?_⟩
    intro t ht
    generalize 2 ^ f.precision = N at h hu ht
    have hu' : (N : Int) * unit f ≤ u := by
      rw [unit, ← Int.natCast_mul]; exact Int.ofNat_le.2 hu
    have h1 : t * unit f < N * unit f := Int.mul_lt_mul_of_pos_right (by omega) hK
    have h2 : -(N : Int) * unit f < t * unit f := Int.mul_lt_mul_of_pos_right (by omega) hK
    rw [Int.neg_mul] at h2
    by_cases hv : v < 0
    · rw [decide_eq_true hv]; simp only [signed, if_true]
      constructor <;> constructor <;> intro _ <;> omega
    · rw [decide_eq_false hv]; simp only [signed, Bool.false_eq_true, if_false]
      constructor <;> constructor <;> intro _ <;> omega

end

/-! ## Comparing with a small threshold -/

theorem single_room : Format.single.precision + Format.single.scale ≤ Format.single.top := by
  decide

theorem single_fits {t : Int} (h : t.natAbs < 16777216) :
    t.natAbs < 2 ^ Format.single.precision := by
  rw [show Format.single.precision = 24 from rfl]; exact h

section
variable {t : Int} (ht : t.natAbs < 16777216)
include ht

theorem ofInt_lt (v : Int) : (ofInt v : Single).lt (ofInt t) = decide (v < t) := by
  obtain ⟨a, ha, h⟩ := units_ofInt single_room v
  rw [lt_of_units ha (units_ofInt_small single_room (single_fits ht))]
  exact decide_eq_decide.2 (h t (single_fits ht)).2

theorem lt_ofInt (v : Int) : (ofInt t : Single).lt (ofInt v) = decide (t < v) := by
  obtain ⟨a, ha, h⟩ := units_ofInt single_room v
  rw [lt_of_units (units_ofInt_small single_room (single_fits ht)) ha]
  exact decide_eq_decide.2 (h t (single_fits ht)).1

theorem eqv_ofInt (v : Int) : (ofInt v : Single).eqv (ofInt t) = decide (v = t) := by
  obtain ⟨a, ha, h⟩ := units_ofInt single_room v
  have h1 := (h t (single_fits ht)).1
  have h2 := (h t (single_fits ht)).2
  rw [eqv_of_units ha (units_ofInt_small single_room (single_fits ht))]
  exact decide_eq_decide.2 ⟨fun e => by omega, fun e => by omega⟩

theorem isZero_ofInt : (ofInt t : Single).isZero = decide (t = 0) := by
  have hK := unit_pos (f := .single)
  unfold isZero
  rw [units_ofInt_small single_room (single_fits ht)]
  by_cases h : t = 0
  · rw [h, Int.zero_mul]; rfl
  · have hne : t * unit .single ≠ 0 := Int.mul_ne_zero h (by omega)
    rw [decide_eq_false h]
    exact beq_eq_false_iff_ne.2 fun e => hne (Option.some.inj e)

theorem truncate_ofInt : (ofInt t : Single).truncate = t := by
  have hK := unit_pos (f := .single)
  rw [truncate_of_units (units_ofInt_small single_room (single_fits ht)),
    Int.mul_tdiv_cancel _ (by omega)]
  unfold clampWord wordMin wordMax
  rw [if_neg (by omega), if_neg (by omega)]

end

/-! ## Whole parts -/

theorem clampWord_mono {a b : Int} (h : a ≤ b) : clampWord a ≤ clampWord b := by
  unfold clampWord wordMin wordMax
  split <;> split <;> (try split) <;> (try split) <;> omega

/-- The whole part follows the order of the numbers. -/
theorem truncate_mono {f : Format} {x y : Binary f} {a b : Int} (hx : x.units? = some a)
    (hy : y.units? = some b) (h : a ≤ b) : x.truncate ≤ y.truncate := by
  rw [truncate_of_units hx, truncate_of_units hy]
  exact clampWord_mono (Int.tdiv_le_tdiv unit_pos h)

section
variable {f : Format}

/-- A number is a signed count of units without bits below the significand, an infinity too. -/
theorem units_signed {x : Binary f} {a : Int} (hx : x.units? = some a) :
    ∃ s u, f.step u ∣ u ∧ u ≤ 2 ^ f.top ∧ a = signed s u := by
  have hp := f.precision_pos
  cases x with
  | nan => cases hx
  | infinite s =>
    refine ⟨s, _, ?_, Nat.le_refl _, (Option.some.inj hx).symm⟩
    unfold Format.step
    rw [Nat.log2_two_pow]
    exact Nat.pow_dvd_pow 2 (by omega)
  | finite s u h => exact ⟨s, u, h.2, Nat.le_of_lt h.1, (Option.some.inj hx).symm⟩

/-- A number whose whole part is longer than the significand is that whole part. -/
theorem units_ofInt_whole {s : Bool} {u : Nat} (h : f.step u ∣ u) (ht : u ≤ 2 ^ f.top)
    (hu : 2 ^ f.precision ≤ u / 2 ^ f.scale) :
    (ofInt (signed s (u / 2 ^ f.scale)) : Binary f).units? = some (signed s u) := by
  have hs := Nat.two_pow_pos f.scale
  have hdvd : 2 ^ f.scale ∣ u := by
    refine Nat.dvd_trans (Nat.pow_dvd_pow 2 (Nat.le_succ _)) (f.two_pow_dvd_of_step_dvd h ?_)
    rw [Nat.pow_add]
    exact (Nat.le_div_iff_mul_le hs).1 hu
  have hpos : 0 < u / 2 ^ f.scale := Nat.lt_of_lt_of_le (Nat.two_pow_pos _) hu
  unfold ofInt
  rw [units_ofRatio, signed_neg_iff hpos, natAbs_signed, Nat.div_mul_cancel hdvd,
    f.roundUnits_of_dvd h, Nat.min_eq_left ht]

end

theorem clampWord_eq (i : Int) :
    clampWord i = i ∨ clampWord i = wordMin ∨ clampWord i = wordMax := by
  unfold clampWord
  split
  · exact Or.inr (Or.inl rfl)
  · split
    · exact Or.inr (Or.inr rfl)
    · exact Or.inl rfl

/-- The ends of the range of words are rounded outward and clamped back. -/
theorem truncate_ofInt_word : (ofInt wordMin : Single).truncate = wordMin
    ∧ (ofInt wordMax : Single).truncate = wordMax := by decide +kernel

/-- A whole part is a number of the description: turning it into one and back loses nothing. -/
theorem truncate_ofInt_truncate (x : Single) :
    (ofInt x.truncate : Single).truncate = x.truncate := by
  cases hx : x.units? with
  | none =>
    have h0 : x.truncate = 0 := by unfold truncate; rw [hx]
    rw [h0]
    exact truncate_ofInt (by decide)
  | some a =>
    obtain ⟨s, u, hd, ht, rfl⟩ := units_signed hx
    have hw : x.truncate = clampWord (signed s (u / 2 ^ Format.single.scale)) := by
      rw [truncate_of_units hx, unit, signed_tdiv]
    rcases clampWord_eq (signed s (u / 2 ^ Format.single.scale)) with he | he | he
    · -- within the range: short of the significand it is exact, beyond it the number is whole
      rw [hw, he]
      by_cases hq : u / 2 ^ Format.single.scale < 2 ^ Format.single.precision
      · exact truncate_ofInt ((natAbs_signed s _).symm ▸ hq)
      · rw [truncate_of_units (units_ofInt_whole hd ht (Nat.le_of_not_lt hq)), unit,
          signed_tdiv, he]
    · rw [hw, he]; exact truncate_ofInt_word.1
    · rw [hw, he]; exact truncate_ofInt_word.2

/-- The greater of a whole part and another number has the greater of their whole parts. -/
theorem max_truncate_max {b : Int} (hb : (ofInt b : Single).truncate = b) (h0 : 0 ≤ b)
    (x : Single) :
    Max.max b (Binary.max (ofInt b) x).truncate = Max.max b x.truncate := by
  obtain ⟨a, ha, -⟩ := units_ofInt single_room b
  cases hx : x.units? with
  | none =>
    have hn : x = .nan := by cases x <;> first | rfl | cases hx
    have hm : Binary.max (ofInt b) (.nan : Single) = ofInt b := by
      cases (ofInt b : Single) <;> rfl
    have ht : (.nan : Single).truncate = 0 := rfl
    rw [hn, hm, hb, ht]
    omega
  | some c =>
    have hm : Binary.max (ofInt b) x = if (ofInt b : Single).lt x then x else ofInt b := by
      generalize (ofInt b : Single) = y at ha
      cases x <;> cases y <;> first | rfl | cases ha
    rw [hm, lt_of_units ha hx]
    by_cases hlt : a < c
    · rw [if_pos (decide_eq_true hlt)]
    · have hle := truncate_mono hx ha (Int.not_lt.1 hlt)
      rw [if_neg fun hd => hlt (of_decide_eq_true hd), hb]
      rw [hb] at hle
      omega

end Binary

end AvatarBits
