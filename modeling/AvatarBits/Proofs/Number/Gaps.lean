import AvatarBits.Proofs.Number.Rounding
import Mathlib.Tactic.LinearCombination
import Mathlib.Tactic.Linarith

/-!
# How close decimals come to binary fractions

A decimal is read through a rounded power of ten, and is then rounded twice more.
All of this moves it by very little, so it stays on its side of a binary fraction
unless it is very close to it. It never is, unless it is equal to it: how close
multiples of one number come to multiples of another is bounded by the steps of
Euclid's algorithm on the two, and `apart` follows these steps for all pairs of
powers that matter.

A power of ten is given by two exponents of which one is zero, that of its
numerator and that of its denominator. Fractions are counted in quarter units of
`Format.single`, of which `2 ^ 151` make one.

* `nearTen`: the integer that stands for a power of ten.
* `apart`: whether multiples keep a distance.

Results:
* `gap_of_apart`: multiples keep the distance that was tested.
* `sided`: rounding the power of ten leaves a decimal on its side of a fraction, a good way off, or
  both on it.
-/
namespace AvatarBits

/-! Powers are those of the core library here, whatever else is imported. -/
attribute [local instance (2000)] instPowNat

/-! ## Multiples of two numbers -/

/-- At most `n`, and as often as `s` fits into `r`. -/
def strides (n r s : Nat) : Nat := bif Nat.ble (n * s) r then n else r / s

theorem strides_mul_le (n r s : Nat) : strides n r s * s ≤ r := by
  unfold strides
  cases h : Nat.ble (n * s) r with
  | true => exact Nat.le_of_ble_eq_true h
  | false => exact Nat.div_mul_le_self r s

/-- Whether multiples of `a`, at most `limit` times, keep the distance `gap` from multiples of `b`,
or are such multiples if that is allowed. The state of Euclid's algorithm: `q` times `a` is `r`
above a multiple of `b`, and `q'` times `a` is `r'` below one. -/
def apart (limit gap : Nat) (equal : Bool) : (fuel q r q' r' : Nat) → Bool
  | 0, _, _, _, _ => false
  | fuel + 1, q, r, q', r' =>
    bif Nat.blt limit (q + q') then
      (Nat.ble gap r || equal && Nat.beq r 0) && (Nat.ble gap r' || equal && Nat.beq r' 0)
    else bif Nat.ble r' r then
      let n := strides ((limit - q) / q') r r'
      apart limit gap equal fuel (q + n * q') (r - n * r') q' r'
    else
      let n := strides ((limit - q') / q) r' r
      apart limit gap equal fuel q r (q' + n * q) (r' - n * r)

/-- Sums of distances that are kept, or zero, are kept, or zero. -/
theorem gap_add {gap r r' : Nat} {equal : Bool} (hr : gap ≤ r ∨ equal = true ∧ r = 0)
    (hr' : gap ≤ r' ∨ equal = true ∧ r' = 0) {x y : Nat} (h : 0 < x + y) :
    gap ≤ x * r + y * r' ∨ equal = true ∧ x * r + y * r' = 0 := by
  have hx : x = 0 ∨ r ≤ x * r := (Nat.eq_zero_or_pos x).imp_right (Nat.le_mul_of_pos_left r)
  have hy : y = 0 ∨ r' ≤ y * r' := (Nat.eq_zero_or_pos y).imp_right (Nat.le_mul_of_pos_left r')
  rcases hr with hr | ⟨he, rfl⟩ <;> rcases hr' with hr' | ⟨he', rfl⟩
  · omega
  · rcases hx with rfl | hx
    · exact .inr ⟨he', by simp⟩
    · exact .inl (by omega)
  · rcases hy with rfl | hy
    · exact .inr ⟨he, by simp⟩
    · exact .inl (by omega)
  · exact .inr ⟨he, by simp⟩

section
variable {limit gap a b : Nat} {equal : Bool}

/-- At the last step, every multiple with a factor that is not above the limit is beyond one of the
two that the step holds. -/
theorem gap_of_last {q r q' r' p p' : Nat} (hdet : p' * q = p * q' + 1)
    (hr : q * a = p * b + r) (hr' : p' * b = q' * a + r') (hlast : limit < q + q')
    (hgap : gap ≤ r ∨ equal = true ∧ r = 0) (hgap' : gap ≤ r' ∨ equal = true ∧ r' = 0)
    {d m : Nat} (h0 : 0 < d) (hd : d ≤ limit) :
    m * b + gap ≤ d * a ∨ d * a + gap ≤ m * b ∨ equal = true ∧ d * a = m * b := by
  -- the multiple as a combination of the two that are held
  obtain ⟨x, hx⟩ : ∃ x : Int, x = d * p' - m * q' := ⟨_, rfl⟩
  obtain ⟨y, hy⟩ : ∃ y : Int, y = m * q - d * p := ⟨_, rfl⟩
  have hdet' : (p' : Int) * q = p * q' + 1 := by exact_mod_cast hdet
  have hri : (q : Int) * a = p * b + r := by exact_mod_cast hr
  have hri' : (p' : Int) * b = q' * a + r' := by exact_mod_cast hr'
  have hdxy : (d : Int) = x * q + y * q' := by
    rw [hx, hy]
    linear_combination -(d : Int) * hdet'
  have hval : (d : Int) * a - m * b = x * r - y * r' := by
    rw [hx, hy]
    linear_combination (d * p' - m * q') * hri - (m * q - d * p) * hri'
      + (m * b - d * a) * hdet'
  have hd' : (d : Int) < q + q' := by omega
  have h0' : (0 : Int) < d := by omega
  rcases lt_or_ge 0 x with hpos | hneg
  · -- not both are positive, or the factor would be beyond the limit
    have hy0 : y ≤ 0 := by
      by_contra hy0
      linarith [mul_le_mul_of_nonneg_right (show (1 : Int) ≤ x by omega) (Int.natCast_nonneg q),
        mul_le_mul_of_nonneg_right (show (1 : Int) ≤ y by omega) (Int.natCast_nonneg q')]
    obtain ⟨x, rfl⟩ := Int.eq_ofNat_of_zero_le hpos.le
    obtain ⟨z, hz⟩ := Int.eq_ofNat_of_zero_le (show 0 ≤ -y by omega)
    have hsum : (d * a : Nat) = m * b + (x * r + z * r') := by
      zify
      linear_combination hval + (r' : Int) * hz
    rcases gap_add hgap hgap' (x := x) (y := z) (by omega) with h | ⟨he, h⟩
    · exact .inl (by omega)
    · exact .inr (.inr ⟨he, by omega⟩)
  · -- not both are negative, or the factor would not be positive
    have hy0 : 0 < y := by
      by_contra hy0
      linarith [mul_nonneg (show (0 : Int) ≤ -x by omega) (Int.natCast_nonneg q),
        mul_nonneg (show (0 : Int) ≤ -y by omega) (Int.natCast_nonneg q')]
    obtain ⟨y, rfl⟩ := Int.eq_ofNat_of_zero_le hy0.le
    obtain ⟨z, hz⟩ := Int.eq_ofNat_of_zero_le (show 0 ≤ -x by omega)
    have hsum : (m * b : Nat) = d * a + (z * r + y * r') := by
      zify
      linear_combination -hval + (r : Int) * hz
    rcases gap_add hgap hgap' (x := z) (y := y) (by omega) with h | ⟨he, h⟩
    · exact .inr (.inl (by omega))
    · exact .inr (.inr ⟨he, by omega⟩)

/-- Multiples with a factor that is not above the limit keep the distance that was tested. -/
theorem gap_of_apart {fuel q r q' r' s t : Nat} (h : apart limit gap equal fuel q r q' r' = true)
    (hdet : t * q = s * q' + 1) (hr : q * a = s * b + r) (hr' : t * b = q' * a + r') {d m : Nat}
    (h0 : 0 < d) (hd : d ≤ limit) :
    m * b + gap ≤ d * a ∨ d * a + gap ≤ m * b ∨ equal = true ∧ d * a = m * b := by
  induction fuel generalizing q r q' r' s t with
  | zero => cases h
  | succ fuel ih =>
    rw [apart] at h
    cases hlast : Nat.blt limit (q + q') with
    | true =>
      rw [hlast] at h
      simp only [cond_true, Bool.and_eq_true, Bool.or_eq_true, Nat.ble_eq, Nat.beq_eq] at h
      exact gap_of_last hdet hr hr' (by simpa using hlast) h.1 h.2 h0 hd
    | false =>
      rw [hlast, cond_false] at h
      cases hle : Nat.ble r' r with
      | true =>
        rw [hle, cond_true] at h
        have hn := strides_mul_le ((limit - q) / q') r r'
        refine ih h (s := s + strides ((limit - q) / q') r r' * t) (t := t) ?_ ?_ hr'
        · linear_combination hdet
        · zify [hn] at hr hr' ⊢
          linear_combination hr - (strides ((limit - q) / q') r r' : Int) * hr'
      | false =>
        rw [hle, cond_false] at h
        have hn := strides_mul_le ((limit - q') / q) r' r
        refine ih h (s := s) (t := t + strides ((limit - q') / q) r' r * s) ?_ hr ?_
        · linear_combination hdet
        · zify [hn] at hr hr' ⊢
          linear_combination hr' - (strides ((limit - q') / q) r' r : Int) * hr

end

/-! ## Rounded powers of ten -/

/-- The integer that stands for a power of ten. -/
def nearTen (n : Nat) : Nat := Format.double.roundUnits (10 ^ n) 1

/-- How far it is from the power. -/
def tenError (n : Nat) : Nat := nearTen n - 10 ^ n + (10 ^ n - nearTen n)

/-- Rounding a power of ten moves it by a small part of it. -/
theorem tenError_le (n : Nat) : 2 ^ 52 * tenError n ≤ 10 ^ n := by
  have hpos : 0 < 10 ^ n := Nat.pow_pos (by decide)
  unfold tenError nearTen
  generalize 10 ^ n = u at hpos
  by_cases hu : u.log2 + 1 ≤ 53
  · -- it fits the significand
    have hstep : Format.double.step u = 1 := by
      rw [Format.step, show u.log2 + 1 - Format.double.precision = 0 from Nat.sub_eq_zero_of_le hu]
    rw [Format.double.roundUnits_of_dvd (hstep ▸ Nat.one_dvd u)]
    omega
  · have hstep : 2 ^ 52 * Format.double.step u ≤ u := by
      rw [Format.step, ← Nat.pow_add, show Format.double.precision = 53 from rfl,
        show 52 + (u.log2 + 1 - 53) = u.log2 by omega]
      exact Nat.log2_self_le (by omega)
    have hnear := Format.double.roundUnits_near u Nat.one_pos
    rw [Nat.div_one, Nat.mul_one, Nat.mul_one] at hnear
    omega

/-- Whether decimals that are read through `10 ^ m / 10 ^ n` keep away from the fractions of
`2 ^ c` quarter units with numerators of 25 bits, or are on them as they should. Finer grids are
left out. -/
def apartTens (m n c : Nat) : Bool :=
  let a := nearTen m * 2 ^ 151
  let b := nearTen n * 2 ^ c
  let limit := 2 ^ 25 * b / a
  let off := limit * (tenError m * 2 ^ 151) + 2 ^ 25 * (tenError n * 2 ^ c)
  Nat.blt (10 ^ m * 2 ^ 151) (10 ^ n * 2 ^ c) || Nat.beq limit 0
    || apart limit (max (b / 2 ^ 29) off + 1) (Nat.beq off 0) 64 1 (a % b) 0 b

set_option maxRecDepth 2000 in
/-- All powers of ten from `-46` to `38`, all powers of two that end intervals. -/
theorem apartTens_all : ((List.range 85).all fun i => (List.range 255).all fun c =>
    apartTens (i - 46) (46 - i) c) = true := by decide +kernel

/-- A decimal and a fraction, exact (`x` and `y`) and as they are read (`x'` and `y'`): both are
equal, or the decimal is read on its side, more than a small part of `unit` away. -/
def Sided (x y x' y' unit : Nat) : Prop :=
  x = y ∧ x' = y' ∨ y < x ∧ 2 ^ 29 * y' + unit < 2 ^ 29 * x'
    ∨ x < y ∧ 2 ^ 29 * x' + unit < 2 ^ 29 * y'

/-- Rounding of both is bounded by the errors of the powers of ten. -/
theorem mul_nearTen_le (d n s : Nat) :
    d * (nearTen n * s) ≤ d * (10 ^ n * s) + d * (tenError n * s)
      ∧ d * (10 ^ n * s) ≤ d * (nearTen n * s) + d * (tenError n * s) := by
  rw [← Nat.mul_add, ← Nat.mul_add, ← Nat.add_mul, ← Nat.add_mul]
  unfold tenError
  exact ⟨Nat.mul_le_mul_left d (Nat.mul_le_mul_right s (by omega)),
    Nat.mul_le_mul_left d (Nat.mul_le_mul_right s (by omega))⟩

theorem nearTen_pos (n : Nat) : 0 < nearTen n := by
  have h := tenError_le n
  have hpos : 0 < 10 ^ n := Nat.pow_pos (by decide)
  unfold tenError at h
  omega

/-- What keeps a distance is read on its side if the errors are within that distance. -/
theorem sided_of_gap {x y x' y' ex ey unit off : Nat} (hx : x' ≤ x + ex ∧ x ≤ x' + ex)
    (hy : y' ≤ y + ey ∧ y ≤ y' + ey) (hoff : ex + ey ≤ off)
    (hgap : y' + (max (unit / 2 ^ 29) off + 1) ≤ x' ∨ x' + (max (unit / 2 ^ 29) off + 1) ≤ y'
      ∨ off = 0 ∧ x' = y') : Sided x y x' y' unit := by
  unfold Sided
  omega

/-- Multiples within the limit keep the distance that was tested. -/
theorem gap_of_apartTens {m n c d w : Nat} (h : apartTens m n c = true)
    (hcoarse : 10 ^ n * 2 ^ c ≤ 10 ^ m * 2 ^ 151) {a b limit off : Nat}
    (ha : a = nearTen m * 2 ^ 151) (hb : b = nearTen n * 2 ^ c) (hl : limit = 2 ^ 25 * b / a)
    (hoff : off = limit * (tenError m * 2 ^ 151) + 2 ^ 25 * (tenError n * 2 ^ c))
    (hd : 0 < d) (hlimit : d ≤ limit) :
    w * b + (max (b / 2 ^ 29) off + 1) ≤ d * a ∨ d * a + (max (b / 2 ^ 29) off + 1) ≤ w * b
      ∨ off = 0 ∧ d * a = w * b := by
  unfold apartTens at h
  dsimp only at h
  rw [← ha, ← hb, ← hl, ← hoff] at h
  simp only [Bool.or_eq_true, Nat.blt_eq, Nat.beq_eq] at h
  rcases h with (h | h) | h
  · omega
  · omega
  · simpa using gap_of_apart (s := a / b) (t := 1) h (by omega)
      (by rw [Nat.one_mul, Nat.mul_comm, Nat.div_add_mod]) (by omega) hd hlimit

/-- On a grid that is not finer than half a gap, every decimal is read on its side of an end. -/
theorem sided_of_coarse {i c d w : Nat} (hi : i < 85) (hc : c < 255) (hd : 0 < d)
    (hw : w < 2 ^ 25) (hcoarse : 10 ^ (46 - i) * 2 ^ c ≤ 10 ^ (i - 46) * 2 ^ 151)
    (hlimit : d * (nearTen (i - 46) * 2 ^ 151) ≤ 2 ^ 25 * (nearTen (46 - i) * 2 ^ c)) :
    Sided (d * (10 ^ (i - 46) * 2 ^ 151)) (w * (10 ^ (46 - i) * 2 ^ c))
      (d * (nearTen (i - 46) * 2 ^ 151)) (w * (nearTen (46 - i) * 2 ^ c))
      (nearTen (46 - i) * 2 ^ c) := by
  have htest := List.all_eq_true.1 apartTens_all i (List.mem_range.2 hi)
  have htest := List.all_eq_true.1 htest c (List.mem_range.2 hc)
  have ha := Nat.mul_pos (nearTen_pos (i - 46)) (Nat.two_pow_pos 151)
  rw [← Nat.le_div_iff_mul_le ha] at hlimit
  exact sided_of_gap (mul_nearTen_le d (i - 46) (2 ^ 151)) (mul_nearTen_le w (46 - i) (2 ^ c))
    (Nat.add_le_add (Nat.mul_le_mul_right _ hlimit) (Nat.mul_le_mul_right _ hw.le))
    (gap_of_apartTens htest hcoarse rfl rfl rfl rfl hd hlimit)

/-- An error of a power of ten is a small part of what it is an error of. -/
theorem mul_tenError_le (d n s : Nat) :
    2 ^ 52 * (d * (tenError n * s)) ≤ d * (10 ^ n * s) := by
  rw [Nat.mul_left_comm, ← Nat.mul_assoc (2 ^ 52)]
  exact Nat.mul_le_mul_left d (Nat.mul_le_mul_right s (tenError_le n))

/-- A decimal that is not near a fraction is read on its side of it. -/
theorem sided_of_far {m n c d w : Nat} (hw : w < 2 ^ 25)
    (hfar : 2 * (w * (10 ^ n * 2 ^ c)) + 10 ^ n * 2 ^ c ≤ 2 * (d * (10 ^ m * 2 ^ 151))
      ∨ 2 * (d * (10 ^ m * 2 ^ 151)) + 10 ^ n * 2 ^ c ≤ 2 * (w * (10 ^ n * 2 ^ c))) :
    Sided (d * (10 ^ m * 2 ^ 151)) (w * (10 ^ n * 2 ^ c)) (d * (nearTen m * 2 ^ 151))
      (w * (nearTen n * 2 ^ c)) (nearTen n * 2 ^ c) := by
  have hunit : 0 < 10 ^ n * 2 ^ c := Nat.mul_pos (Nat.pow_pos (by decide)) (Nat.two_pow_pos c)
  have hwu : w * (10 ^ n * 2 ^ c) ≤ 2 ^ 25 * (10 ^ n * 2 ^ c) := Nat.mul_le_mul_right _ hw.le
  have hx := mul_nearTen_le d m (2 ^ 151)
  have hy := mul_nearTen_le w n (2 ^ c)
  have hu := mul_nearTen_le 1 n (2 ^ c)
  have hex := mul_tenError_le d m (2 ^ 151)
  have hey := mul_tenError_le w n (2 ^ c)
  have heu := mul_tenError_le 1 n (2 ^ c)
  simp only [Nat.one_mul] at hu heu
  unfold Sided
  omega

/-- **Sides.** A decimal on a grid that is not finer than half a gap, or not near a fraction, is read
on its side of the fraction. -/
theorem sided {k : Int} {c d w : Nat} (hk : k ≤ 38) (hc : c < 255) (hd : 0 < d) (hw : w < 2 ^ 25)
    (h : 10 ^ (-k).toNat * 2 ^ c ≤ 10 ^ k.toNat * 2 ^ 151
      ∨ 2 * (w * (10 ^ (-k).toNat * 2 ^ c)) + 10 ^ (-k).toNat * 2 ^ c
        ≤ 2 * (d * (10 ^ k.toNat * 2 ^ 151))
      ∨ 2 * (d * (10 ^ k.toNat * 2 ^ 151)) + 10 ^ (-k).toNat * 2 ^ c
        ≤ 2 * (w * (10 ^ (-k).toNat * 2 ^ c))) :
    Sided (d * (10 ^ k.toNat * 2 ^ 151)) (w * (10 ^ (-k).toNat * 2 ^ c))
      (d * (nearTen k.toNat * 2 ^ 151)) (w * (nearTen (-k).toNat * 2 ^ c))
      (nearTen (-k).toNat * 2 ^ c) := by
  by_cases hfar : 2 * (w * (10 ^ (-k).toNat * 2 ^ c)) + 10 ^ (-k).toNat * 2 ^ c
        ≤ 2 * (d * (10 ^ k.toNat * 2 ^ 151))
      ∨ 2 * (d * (10 ^ k.toNat * 2 ^ 151)) + 10 ^ (-k).toNat * 2 ^ c
        ≤ 2 * (w * (10 ^ (-k).toNat * 2 ^ c))
  · exact sided_of_far hw hfar
  have hcoarse := h.resolve_right hfar
  -- so few units make one that powers of ten below the table are too fine
  have hlow : -46 ≤ k := by
    by_contra hlow
    rw [show k.toNat = 0 by omega] at hcoarse
    have hten : 10 ^ 46 ≤ 10 ^ (-k).toNat := Nat.pow_le_pow_right (by decide) (by omega)
    have hle := Nat.le_mul_of_pos_right (10 ^ (-k).toNat) (Nat.two_pow_pos c)
    omega
  obtain ⟨i, hi, hki⟩ : ∃ i : Nat, i < 85 ∧ k = i - 46 := ⟨(k + 46).toNat, by omega, by omega⟩
  rw [show k.toNat = i - 46 by omega, show (-k).toNat = 46 - i by omega] at hfar hcoarse ⊢
  have hwu := Nat.mul_le_mul_right (10 ^ (46 - i) * 2 ^ c) (Nat.le_sub_one_of_lt hw)
  refine sided_of_coarse hi hc hd hw hcoarse ?_
  have hx := mul_nearTen_le d (i - 46) (2 ^ 151)
  have hex := mul_tenError_le d (i - 46) (2 ^ 151)
  have hu := mul_nearTen_le 1 (46 - i) (2 ^ c)
  have heu := mul_tenError_le 1 (46 - i) (2 ^ c)
  simp only [Nat.one_mul] at hu heu
  omega

end AvatarBits
