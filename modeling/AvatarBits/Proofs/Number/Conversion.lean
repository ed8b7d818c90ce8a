import AvatarBits.Proofs.Number.Whole
import AvatarBits.Simulation.Store

/-!
# Ranges of whole numbers, converted

Converting a number from one range to another takes five operations, each
rounded. Sums, differences and products of whole numbers are exact as long as
they fit the significand, so only the quotient and the last sum round, and
rounding does not go beyond a number of the format (`Format.roundUnits_le`).

Results:
* `add_exact`, `mul_exact`: an exact result that the format holds is the result.
* `div_within`, `add_within`: rounded results stay within a number of the format.
* `RangeConversion.Whole.apply_le`: a number within the source range is converted to one that is
  not above the ends of the destination range.
-/
namespace AvatarBits

/-! Powers are those of the core library here, whatever else is imported. -/
attribute [local instance (2000)] instPowNat

namespace Format

variable (f : Format)

/-- Rounding does not go beyond a count of the format. -/
theorem roundUnits_le {num den k : Nat} (hden : 0 < den) (hk : f.step k ∣ k)
    (h : num ≤ k * den) : f.roundUnits num den ≤ k := by
  have hle : num / den ≤ k := Nat.div_le_of_le_mul (Nat.mul_comm k den ▸ h)
  have hstep : f.step (num / den) ∣ k :=
    Nat.dvd_trans (f.step_dvd_of_lt (Nat.lt_of_le_of_lt hle Nat.lt_log2_self)) hk
  have hs : 0 < f.step (num / den) := Nat.two_pow_pos _
  unfold roundUnits
  dsimp only
  generalize f.step (num / den) = s at hstep hs
  obtain ⟨j, rfl⟩ := hstep
  have hD : 0 < den * s := Nat.mul_pos hden hs
  have hnum : num ≤ j * (den * s) := by
    rw [show j * (den * s) = s * j * den by ac_rfl]
    exact h
  generalize den * s = D at hD hnum
  have hround : roundDiv num D ≤ j := by
    by_cases he : num = j * D
    · -- exact: nothing is rounded up
      have hmod : num % D = 0 := by rw [he]; exact Nat.mul_mod_left j D
      have hdiv : num / D = j := by rw [he]; exact Nat.mul_div_cancel j hD
      have hexact : roundDiv num D = j := by
        unfold roundDiv
        rw [hmod, if_pos (Or.inl (by omega)), hdiv]
      exact Nat.le_of_eq hexact
    · have hlt : num / D < j := (Nat.div_lt_iff_lt_mul hD).2 (by omega)
      have := roundDiv_le num D
      omega
  rw [Nat.mul_comm s j]
  exact Nat.mul_le_mul_right s hround

/-- A quotient that is a count of the format is not moved by rounding. -/
theorem roundUnits_mul {m den : Nat} (hden : 0 < den) (h : f.step m ∣ m) :
    f.roundUnits (m * den) den = m := by
  have hs : 0 < f.step m := Nat.two_pow_pos _
  obtain ⟨j, hj⟩ := h
  have hnum : m * den = j * (den * f.step m) := by
    conv => lhs; rw [hj]
    ac_rfl
  have hD : 0 < den * f.step m := Nat.mul_pos hden hs
  have hdiv : m * den / (den * f.step m) = j := by rw [hnum]; exact Nat.mul_div_cancel j hD
  have hmod : m * den % (den * f.step m) = 0 := by rw [hnum]; exact Nat.mul_mod_left j _
  unfold roundUnits
  simp only [Nat.mul_div_cancel m hden]
  unfold roundDiv
  rw [hmod, if_pos (Or.inl (by omega)), hdiv, Nat.mul_comm]
  exact hj.symm

end Format

namespace Binary

variable {f : Format}

/-! ## Exact values -/

/-- A finite number and its value in units. -/
def Is (x : Binary f) (a : Int) : Prop := ∃ s u h, x = .finite s u h ∧ a = signed s u

theorem Is.units {x : Binary f} {a : Int} (h : x.Is a) : x.units? = some a := by
  obtain ⟨s, u, hu, rfl, rfl⟩ := h
  rfl

theorem is_ofRatio {s : Bool} {num den : Nat} (h : f.roundUnits num den < 2 ^ f.top) :
    (ofRatio s num den : Binary f).Is (signed s (f.roundUnits num den)) := by
  unfold ofRatio
  exact ⟨s, _, _, dif_pos h, rfl⟩

theorem is_neg {x : Binary f} {a : Int} (h : x.Is a) : (-x).Is (-a) := by
  obtain ⟨s, u, hu, rfl, rfl⟩ := h
  refine ⟨!s, u, hu, rfl, ?_⟩
  cases s <;> simp [signed]

theorem fits_zero : f.Fits 0 := ⟨Nat.two_pow_pos _, Nat.dvd_zero _⟩

theorem is_zero (s : Bool) : (zero s : Binary f).Is 0 := ⟨s, 0, fits_zero, rfl, by cases s <;> rfl⟩

/-- The sum of two finite numbers is their exact sum, rounded once. -/
theorem add_eq {x y : Binary f} {a b : Int} (hx : x.Is a) (hy : y.Is b) (h : a + b ≠ 0) :
    x + y = ofRatio (a + b < 0) (a + b).natAbs 1 := by
  obtain ⟨s, u, hu, rfl, rfl⟩ := hx
  obtain ⟨t, v, hv, rfl, rfl⟩ := hy
  exact if_neg h

theorem add_opposite {x y : Binary f} {a b : Int} (hx : x.Is a) (hy : y.Is b) (h : a + b = 0) :
    (x + y).Is 0 := by
  obtain ⟨s, u, hu, rfl, rfl⟩ := hx
  obtain ⟨t, v, hv, rfl, rfl⟩ := hy
  have he : Binary.finite s u hu + Binary.finite t v hv = zero (s && t) := if_pos h
  rw [he]
  exact is_zero _

theorem add_exact {x y : Binary f} {a b : Int} (hx : x.Is a) (hy : y.Is b)
    (h : f.Fits (a + b).natAbs) : (x + y).Is (a + b) := by
  by_cases h0 : a + b = 0
  · rw [h0]
    exact add_opposite hx hy h0
  · have hr := f.roundUnits_of_dvd h.2
    have his := is_ofRatio (s := a + b < 0) (hr.symm ▸ h.1)
    rw [hr, signed_natAbs] at his
    rw [add_eq hx hy h0]
    exact his

theorem sub_exact {x y : Binary f} {a b : Int} (hx : x.Is a) (hy : y.Is b)
    (h : f.Fits (a - b).natAbs) : (x - y).Is (a - b) := add_exact hx (is_neg hy) h

/-- A sum that is not above a number of the format is not rounded beyond it. -/
theorem add_within {x y : Binary f} {a b : Int} (hx : x.Is a) (hy : y.Is b) {k : Nat}
    (hk : f.step k ∣ k) (h : a + b ≤ k) : ∃ c, (x + y).units? = some c ∧ c ≤ k := by
  by_cases h0 : a + b = 0
  · exact ⟨0, (add_opposite hx hy h0).units, Int.natCast_nonneg k⟩
  · refine ⟨_, by rw [add_eq hx hy h0]; exact units_ofRatio _ _ _, ?_⟩
    by_cases hneg : a + b < 0
    · rw [decide_eq_true hneg]
      exact Int.le_trans (Int.neg_nonpos_of_nonneg (Int.natCast_nonneg _)) (Int.natCast_nonneg k)
    · rw [decide_eq_false hneg]
      have hle : f.roundUnits (a + b).natAbs 1 ≤ k :=
        f.roundUnits_le Nat.one_pos hk (by omega)
      exact Int.ofNat_le.2 (Nat.le_trans (Nat.min_le_left _ _) hle)

/-- A product that the format holds is exact. -/
theorem mul_exact {x y : Binary f} {a b m : Int} (hx : x.Is a) (hy : y.Is b)
    (hm : a * b = m * unit f) (h : f.Fits m.natAbs) : (x * y).Is m := by
  obtain ⟨s, u, hu, rfl, rfl⟩ := hx
  obtain ⟨t, v, hv, rfl, rfl⟩ := hy
  have hpos : 0 < 2 ^ f.scale := Nat.two_pow_pos _
  have hsigned : signed s u * signed t v = signed (s ^^ t) (u * v) := by
    cases s <;> cases t <;> simp only [signed, Bool.xor_true, Bool.xor_false, Bool.not_true,
      Bool.not_false, Bool.false_eq_true, if_true, if_false, Int.neg_mul, Int.mul_neg, Int.neg_neg,
      Int.natCast_mul]
  have habs : u * v = m.natAbs * 2 ^ f.scale := by
    have := congrArg Int.natAbs hm
    rw [Int.natAbs_mul, natAbs_signed, natAbs_signed, Int.natAbs_mul] at this
    exact this
  have hr : f.roundUnits (u * v) (2 ^ f.scale) = m.natAbs := by
    rw [habs]
    exact f.roundUnits_mul hpos h.2
  have his := is_ofRatio (s := s ^^ t) (hr.symm ▸ h.1)
  rw [hr] at his
  have hval : signed (s ^^ t) m.natAbs = m := by
    have hmul : signed (s ^^ t) m.natAbs * unit f = m * unit f := by
      rw [← hm, hsigned, habs, signed_mul]
      rfl
    exact Int.eq_of_mul_eq_mul_right (Int.ne_of_gt unit_pos) hmul
  rw [hval] at his
  exact his

/-- A quotient by a positive number that is within a number of the format is not rounded beyond it,
on its side of zero. -/
theorem div_within {x y : Binary f} {a b : Int} (hx : x.Is a) (hy : y.Is b) (hb : 0 < b) {k : Nat}
    (hk : f.Fits k) (h : a.natAbs * unit f ≤ k * b) :
    ∃ c, (x / y).Is c ∧ c.natAbs ≤ k ∧ (0 ≤ a → 0 ≤ c) ∧ (a ≤ 0 → c ≤ 0) := by
  obtain ⟨s, u, hu, rfl, rfl⟩ := hx
  obtain ⟨t, v, hv, rfl, rfl⟩ := hy
  obtain rfl : t = false := by
    cases t with
    | false => rfl
    | true => simp only [signed, if_true] at hb; omega
  have hvpos : 0 < v := Int.natCast_pos.1 hb
  have hle : f.roundUnits (u * 2 ^ f.scale) v ≤ k := by
    apply f.roundUnits_le hvpos hk.2
    rw [natAbs_signed, unit, show signed false v = (v : Int) from rfl, ← Int.natCast_mul,
      ← Int.natCast_mul] at h
    exact Int.ofNat_le.1 h
  have hdiv : Binary.finite s u hu / Binary.finite false v hv
      = ofRatio (s ^^ false) (u * 2 ^ f.scale) v := if_neg (by omega)
  rw [hdiv, Bool.xor_false]
  have hzero : u = 0 → f.roundUnits (u * 2 ^ f.scale) v = 0 := by
    rintro rfl
    exact Nat.le_zero.1 (f.roundUnits_le hvpos (Nat.dvd_zero _) (by omega))
  refine ⟨_, is_ofRatio (Nat.lt_of_le_of_lt hle hk.1), (natAbs_signed _ _).symm ▸ hle, ?_⟩
  generalize f.roundUnits (u * 2 ^ f.scale) v = q at hzero
  cases s with
  | false =>
    simp only [signed, Bool.false_eq_true, if_false]
    exact ⟨fun _ => Int.natCast_nonneg q, fun h => by omega⟩
  | true =>
    simp only [signed, if_true]
    exact ⟨fun h => by omega, fun _ => by omega⟩

/-! ## Whole numbers -/

theorem fits_whole (hf : f.precision + f.scale ≤ f.top) {i : Int}
    (h : i.natAbs < 2 ^ f.precision) : f.Fits (i * unit f).natAbs := by
  have habs : (i * unit f).natAbs = i.natAbs * 2 ^ f.scale := Int.natAbs_mul i (unit f)
  rw [habs]
  refine ⟨?_, f.step_dvd_shift h⟩
  calc i.natAbs * 2 ^ f.scale < 2 ^ f.precision * 2 ^ f.scale :=
        Nat.mul_lt_mul_of_pos_right h (Nat.two_pow_pos _)
    _ ≤ 2 ^ f.top := by rw [← Nat.pow_add]; exact Nat.pow_le_pow_right (by decide) hf

theorem is_ofInt (hf : f.precision + f.scale ≤ f.top) {i : Int}
    (h : i.natAbs < 2 ^ f.precision) : (ofInt i : Binary f).Is (i * unit f) := by
  have hfits := fits_whole hf h
  have habs : (i * unit f).natAbs = i.natAbs * 2 ^ f.scale := Int.natAbs_mul i (unit f)
  rw [habs] at hfits
  have hr := f.roundUnits_of_dvd hfits.2
  have his := is_ofRatio (s := i < 0) (hr.symm ▸ hfits.1)
  rw [hr, signed_mul, signed_natAbs] at his
  exact his

/-- Half of the significand leaves room for a difference. -/
theorem sub_whole {i j : Int} (hi : i.natAbs < 8388608) (hj : j.natAbs < 8388608) :
    (ofInt i - ofInt j : Single).Is ((i - j) * unit .single) := by
  have hd := fits_whole single_room (single_fits (t := i - j) (by omega))
  rw [Int.sub_mul] at hd ⊢
  exact sub_exact (is_ofInt single_room (single_fits (by omega)))
    (is_ofInt single_room (single_fits (by omega))) hd

end Binary

/-! ## Conversions -/

/-- A conversion between ranges with whole ends, small enough for exact products: from `p` to `q`
onto `u` to `v`. -/
structure RangeConversion.Whole (r : RangeConversion) (p q u v : Int) : Prop where
  sourceMin_eq : r.sourceMin = .ofInt p
  sourceMax_eq : r.sourceMax = .ofInt q
  destMin_eq : r.destMin = .ofInt u
  destMax_eq : r.destMax = .ofInt v
  source_lt : p < q
  ends_lt : p.natAbs < 8388608 ∧ q.natAbs < 8388608 ∧ u.natAbs < 8388608 ∧ v.natAbs < 8388608
  product_lt : (q - p).natAbs * (v - u).natAbs < 16777216

namespace RangeConversion

open Binary

theorem Whole.apply_eq {r : RangeConversion} {p q u v : Int} (h : r.Whole p q u v) (x : Single) :
    r.apply x
      = .ofInt u + (x - .ofInt p) * (.ofInt v - .ofInt u) / (.ofInt q - .ofInt p) := by
  have hpq := h.source_lt
  have hp := h.ends_lt.1
  have hne : (ofInt q : Single).eqv (ofInt p) = false := by
    rw [eqv_ofInt (by omega)]
    exact decide_eq_false (by omega)
  unfold apply
  rw [h.sourceMin_eq, h.sourceMax_eq, h.destMin_eq, h.destMax_eq, hne]
  exact if_neg Bool.false_ne_true

/-- Part `i` of `s` parts of a way is not longer than the way, whatever a part counts. -/
theorem share_le {i s d K : Int} (h0 : 0 ≤ i) (his : i ≤ s) (hK : 0 < K) :
    ((i * d * K).natAbs : Int) * K ≤ (d * K).natAbs * (s * K) := by
  have hnum : ((i * d * K).natAbs : Int) ≤ s * (d * K).natAbs := by
    rw [Int.mul_assoc, Int.natAbs_mul, Int.natCast_mul]
    exact Int.mul_le_mul_of_nonneg_right (by omega) (Int.natCast_nonneg _)
  calc ((i * d * K).natAbs : Int) * K ≤ s * (d * K).natAbs * K :=
        Int.mul_le_mul_of_nonneg_right hnum (Int.le_of_lt hK)
    _ = (d * K).natAbs * (s * K) := by ac_rfl

/-- From one end, toward the other and not beyond it. -/
theorem way_le {u v c K : Int} (hK : 0 < K) (hle : c.natAbs ≤ ((v - u) * K).natAbs)
    (hneg : v ≤ u → c ≤ 0) : u * K + c ≤ max (max u v) 0 * K := by
  have hmono : ∀ w, w ≤ max (max u v) 0 → w * K ≤ max (max u v) 0 * K := fun w hw =>
    Int.mul_le_mul_of_nonneg_right hw (Int.le_of_lt hK)
  by_cases huv : u ≤ v
  · have hd : (((v - u) * K).natAbs : Int) = (v - u) * K :=
      Int.natAbs_of_nonneg (Int.mul_nonneg (by omega) (Int.le_of_lt hK))
    have hv := hmono v (by omega)
    rw [Int.sub_mul] at hd hle
    omega
  · have hu := hmono u (by omega)
    have hc := hneg (by omega)
    omega

/-- A whole number within the source range is converted to a number whose whole part is not above
the ends of the destination range, or not above zero. -/
theorem Whole.apply_le {r : RangeConversion} {p q u v : Int} (h : r.Whole p q u v) {i : Int}
    (hp : p ≤ i) (hq : i ≤ q) : (r.apply (.ofInt i)).truncate ≤ max (max u v) 0 := by
  have hU := unit_pos (f := .single)
  obtain ⟨hp', hq', hu', hv'⟩ := h.ends_lt
  have hpq := h.source_lt
  have hspan : (i - p).natAbs * (v - u).natAbs ≤ (q - p).natAbs * (v - u).natAbs :=
    Nat.mul_le_mul_right _ (by omega)
  have hprod := h.product_lt
  -- the differences and the product are exact
  have hx := sub_whole (i := i) (by omega) hp'
  have hd := sub_whole hv' hu'
  have hs := sub_whole hq' hp'
  have hmul : ((ofInt i - ofInt p) * (ofInt v - ofInt u) : Single).Is
      ((i - p) * (v - u) * unit .single) := by
    refine mul_exact hx hd (by ac_rfl) (fits_whole single_room (single_fits ?_))
    rw [Int.natAbs_mul]
    omega
  -- the quotient is between zero and the difference of the ends, and so the sum between the ends
  obtain ⟨c, hc, hle, -, hneg⟩ := div_within hmul hs (Int.mul_pos (by omega) hU)
    (fits_whole single_room (single_fits (by omega))) (share_le (by omega) (by omega) hU)
  have hsum : u * unit .single + c ≤ max (max u v) 0 * unit .single := by
    refine way_le hU hle fun hvu => hneg ?_
    exact Int.mul_nonpos_of_nonpos_of_nonneg
      (Int.mul_nonpos_of_nonneg_of_nonpos (by omega) (by omega)) (Int.le_of_lt hU)
  have hM : ((max (max u v) 0 * unit .single).natAbs : Int) = max (max u v) 0 * unit .single :=
    Int.natAbs_of_nonneg (Int.mul_nonneg (by omega) (Int.le_of_lt hU))
  obtain ⟨e, he, hek⟩ := add_within (is_ofInt single_room (single_fits (by omega))) hc
    (fits_whole single_room (single_fits (t := max (max u v) 0) (by omega))).2 (hM.symm ▸ hsum)
  rw [h.apply_eq]
  have hle := truncate_mono he (units_ofInt_small single_room
    (single_fits (t := max (max u v) 0) (by omega))) (hM ▸ hek)
  rwa [truncate_ofInt (by omega)] at hle

end RangeConversion

end AvatarBits
