import AvatarBits.Proofs.Number.Conversion

/-!
# What rounding does to a quotient

Rounding `num / den` to a format moves it by at most half the gap above it, and
not across a count of the format. The other way round, a quotient within half a
gap of a count is rounded to that count, a quarter gap on the near side of a
power of two, and at the very ends if the count's significand is even
(`Format.Owns`).

Results:
* `roundUnits_near`: how far rounding moves a quotient.
* `le_roundUnits`: rounding does not fall below a count of the format.
* `roundUnits_of_owns`: a quotient in the interval of a count is rounded to it.
-/
namespace AvatarBits

/-! Powers are those of the core library here, whatever else is imported. -/
attribute [local instance (2000)] instPowNat

namespace Format

/-! ## To the nearest integer -/

/-- The integer nearest to a quotient is at most a half away. -/
theorem roundDiv_near (num : Nat) {den : Nat} (hden : 0 < den) :
    2 * (roundDiv num den * den) ≤ 2 * num + den
      ∧ 2 * num ≤ 2 * (roundDiv num den * den) + den := by
  have hdiv := Nat.div_add_mod num den
  have hmod := Nat.mod_lt num hden
  rw [Nat.mul_comm] at hdiv
  unfold roundDiv
  split
  · omega
  · rw [Nat.add_mul, Nat.one_mul]
    omega

/-- An integer that is at most a half away, and less if it is odd, is the nearest. -/
theorem roundDiv_eq {num den m : Nat} (hden : 0 < den) (hlow : 2 * (m * den) ≤ 2 * num + den)
    (hhigh : 2 * num ≤ 2 * (m * den) + den)
    (htie : m % 2 = 0 ∨ 2 * (m * den) < 2 * num + den ∧ 2 * num < 2 * (m * den) + den) :
    roundDiv num den = m := by
  have hdiv := Nat.div_add_mod num den
  have hmod := Nat.mod_lt num hden
  rw [Nat.mul_comm] at hdiv
  generalize hq : num / den = q at hdiv
  -- the integer is the quotient or the one above it
  have hqm : q ≤ m := by
    refine Nat.le_of_not_lt fun h => ?_
    have := Nat.mul_le_mul_right den (Nat.succ_le_of_lt h)
    rw [Nat.succ_mul] at this
    omega
  have hmq : m ≤ q + 1 := by
    refine Nat.le_of_not_lt fun h => ?_
    have := Nat.mul_le_mul_right den (Nat.succ_le_of_lt h)
    rw [Nat.succ_mul, Nat.succ_mul] at this
    omega
  unfold roundDiv
  rw [hq]
  obtain rfl | rfl : m = q ∨ m = q + 1 := by omega
  · rw [if_pos (by omega)]
  · rw [Nat.succ_mul q den] at hlow hhigh htie
    rw [if_neg (by omega)]

/-- A factor that both have does not matter. -/
theorem roundDiv_mul_right (a b : Nat) {c : Nat} (hc : 0 < c) :
    roundDiv (a * c) (b * c) = roundDiv a b := by
  unfold roundDiv
  rw [Nat.mul_mod_mul_right, Nat.mul_div_mul_right a b hc, ← Nat.mul_assoc]
  simp only [Nat.mul_lt_mul_right hc, Nat.mul_right_cancel_iff hc]

/-! ## To a count of a format -/

variable (f : Format)

theorem step_pos (u : Nat) : 0 < f.step u := Nat.two_pow_pos _

/-- The gap above a magnitude, from a power of two above it. -/
theorem step_le_of_lt {u k : Nat} (h : u < 2 ^ (f.precision + k)) : f.step u ≤ 2 ^ k := by
  have hp := f.precision_pos
  have hk : f.precision + k = f.precision + k - 1 + 1 := by omega
  rw [hk] at h
  refine Nat.le_of_dvd (Nat.two_pow_pos k) (Nat.dvd_trans (f.step_dvd_of_lt h) ?_)
  exact Nat.pow_dvd_pow 2 (by omega)

/-- Rounding moves a quotient by at most half the gap above it. -/
theorem roundUnits_near (num : Nat) {den : Nat} (hden : 0 < den) :
    2 * (f.roundUnits num den * den) ≤ 2 * num + f.step (num / den) * den
      ∧ 2 * num ≤ 2 * (f.roundUnits num den * den) + f.step (num / den) * den := by
  have hD := Nat.mul_pos hden (f.step_pos (num / den))
  have h := roundDiv_near num hD
  unfold roundUnits
  dsimp only
  generalize roundDiv num (den * f.step (num / den)) = m at h
  rw [show m * f.step (num / den) * den = m * (den * f.step (num / den)) by ac_rfl,
    Nat.mul_comm (f.step _) den]
  exact h

/-- Rounding does not fall below a count of the format. -/
theorem le_roundUnits {num den k : Nat} (hden : 0 < den) (hk : f.step k ∣ k)
    (h : k * den ≤ num) : k ≤ f.roundUnits num den := by
  rcases Nat.eq_zero_or_pos k with rfl | hpos
  · exact Nat.zero_le _
  have hle : k ≤ num / den := (Nat.le_div_iff_mul_le hden).2 h
  have hs := f.step_pos (num / den)
  have hD : 0 < den * f.step (num / den) := Nat.mul_pos hden hs
  by_cases hlog : k.log2 = (num / den).log2
  · -- both are counts of the same gap
    have hstep : f.step k = f.step (num / den) := by rw [step, hlog, step]
    rw [hstep] at hk
    unfold roundUnits
    dsimp only
    generalize f.step (num / den) = s at hk hs hD
    obtain ⟨j, rfl⟩ := hk
    rw [Nat.mul_comm s j]
    refine Nat.mul_le_mul_right s ?_
    have hj : j ≤ num / (den * s) := by
      rw [Nat.le_div_iff_mul_le hD, show j * (den * s) = s * j * den by ac_rfl]
      exact h
    unfold roundDiv
    split <;> omega
  · -- a power of two parts them
    have hk2 : k < 2 ^ (num / den).log2 := by
      have h1 : k.log2 ≤ (num / den).log2 :=
        (Nat.le_log2 (by omega)).2 (Nat.le_trans (Nat.log2_self_le (by omega)) hle)
      exact Nat.lt_of_lt_of_le Nat.lt_log2_self (Nat.pow_le_pow_right (by decide) (by omega))
    have hpow : 2 ^ (num / den).log2 ≤ num / den := Nat.log2_self_le (by omega)
    have hdvd : f.step (num / den) ∣ 2 ^ (num / den).log2 :=
      Nat.pow_dvd_pow 2 (by have := f.precision_pos; omega)
    have hdiv : num / den / f.step (num / den) ≤ roundDiv num (den * f.step (num / den)) := by
      rw [Nat.div_div_eq_div_mul]
      unfold roundDiv
      split <;> omega
    have hround : 2 ^ (num / den).log2 ≤ f.roundUnits num den :=
      calc 2 ^ (num / den).log2
          = 2 ^ (num / den).log2 / f.step (num / den) * f.step (num / den) :=
            (Nat.div_mul_cancel hdvd).symm
        _ ≤ num / den / f.step (num / den) * f.step (num / den) :=
            Nat.mul_le_mul_right _ (Nat.div_le_div_right hpow)
        _ ≤ f.roundUnits num den := Nat.mul_le_mul_right _ hdiv
    omega

theorem roundUnits_zero {den : Nat} (hden : 0 < den) : f.roundUnits 0 den = 0 :=
  Nat.le_zero.1 (f.roundUnits_le hden (Nat.dvd_zero _) (Nat.zero_le _))

theorem roundUnits_mul_right (a b : Nat) {c : Nat} (hc : 0 < c) :
    f.roundUnits (a * c) (b * c) = f.roundUnits a b := by
  unfold roundUnits
  dsimp only
  rw [Nat.mul_div_mul_right a b hc, Nat.mul_right_comm b c, roundDiv_mul_right _ _ hc]

/-- Rounding an integer and then shifting it up, or the other way round. -/
theorem roundUnits_shift (m s : Nat) :
    f.roundUnits (m * 2 ^ s) 1 = f.roundUnits m 1 * 2 ^ s := by
  by_cases hm : m < 2 ^ f.precision
  · have hone := f.step_dvd_shift (k := 0) hm
    rw [Nat.pow_zero, Nat.mul_one] at hone
    rw [f.roundUnits_of_dvd (f.step_dvd_shift hm), f.roundUnits_of_dvd hone]
  · have hs := Nat.two_pow_pos s
    have hne : m ≠ 0 := by
      have := Nat.two_pow_pos f.precision
      omega
    have hlog : (m * 2 ^ s).log2 = m.log2 + s := by
      rw [Nat.log2_eq_iff (Nat.mul_ne_zero hne (by omega)), Nat.pow_add, Nat.add_right_comm,
        Nat.pow_add]
      exact ⟨Nat.mul_le_mul_right _ (Nat.log2_self_le hne),
        Nat.mul_lt_mul_of_pos_right Nat.lt_log2_self hs⟩
    have hlen : f.precision ≤ m.log2 := (Nat.le_log2 hne).2 (Nat.le_of_not_lt hm)
    have hstep : f.step (m * 2 ^ s) = f.step m * 2 ^ s := by
      rw [step, step, hlog, ← Nat.pow_add,
        show m.log2 + s + 1 - f.precision = m.log2 + 1 - f.precision + s by omega]
    unfold roundUnits
    dsimp only
    rw [Nat.div_one, Nat.div_one, hstep, Nat.one_mul, Nat.one_mul, roundDiv_mul_right _ _ hs,
      Nat.mul_assoc]

/-- A quotient that is more than half a gap above a count is not rounded to it. -/
theorem lt_roundUnits {num den e k : Nat} (hden : 0 < den) (he : e < 2 ^ (f.precision + k))
    (h : 2 * (e * den) + 2 ^ k * den < 2 * num) : e < f.roundUnits num den := by
  by_cases hlt : num < 2 ^ (f.precision + k) * den
  · have hstep := f.step_le_of_lt ((Nat.div_lt_iff_lt_mul hden).2 hlt)
    have hgap := Nat.mul_le_mul_right den hstep
    have hnear := (f.roundUnits_near num hden).2
    exact Nat.lt_of_mul_lt_mul_right (a := den) (by omega)
  · -- it is not even below the next power of two
    have hdvd : f.step (2 ^ (f.precision + k)) ∣ 2 ^ (f.precision + k) := by
      have hp := f.precision_pos
      unfold step
      rw [Nat.log2_two_pow]
      exact Nat.pow_dvd_pow 2 (by omega)
    exact Nat.lt_of_lt_of_le he (f.le_roundUnits hden hdvd (Nat.le_of_not_lt hlt))

/-- A quotient that is more than half a gap below a count is not rounded to it. -/
theorem roundUnits_lt {num den e k : Nat} (hden : 0 < den) (he : e < 2 ^ (f.precision + k))
    (h : 2 * num + 2 ^ k * den < 2 * (e * den)) : f.roundUnits num den < e := by
  have hlt : num < 2 ^ (f.precision + k) * den :=
    Nat.lt_of_lt_of_le (by omega) (Nat.mul_le_mul_right den (Nat.le_of_lt he))
  have hstep := f.step_le_of_lt ((Nat.div_lt_iff_lt_mul hden).2 hlt)
  have hgap := Nat.mul_le_mul_right den hstep
  have hnear := (f.roundUnits_near num hden).1
  exact Nat.lt_of_mul_lt_mul_right (a := den) (by omega)

/-! ## The interval of a count -/

/-- A count of the format is a power of two with a smaller gap below. -/
def Narrow (u : Nat) : Prop := 1 < f.step u ∧ u = 2 ^ u.log2

instance (u : Nat) : Decidable (f.Narrow u) := inferInstanceAs (Decidable (_ ∧ _))

/-- Lower end of the interval of a count, in quarter units. -/
def low (u : Nat) : Nat := if f.Narrow u then 4 * u - f.step u else 4 * u - 2 * f.step u

/-- Upper end of the interval of a count, in quarter units. -/
def high (u : Nat) : Nat := 4 * u + 2 * f.step u

/-- A quotient lies in the interval of a count: between the ends, or at one of them if the
significand is even. -/
def Owns (u num den : Nat) : Prop :=
  f.low u * den < 4 * num ∧ 4 * num < f.high u * den
    ∨ u / f.step u % 2 = 0 ∧ f.low u * den ≤ 4 * num ∧ 4 * num ≤ f.high u * den

variable {f}

theorem step_le_self {u : Nat} (hu : 0 < u) : f.step u ≤ u := by
  have hp := f.precision_pos
  have hpow : f.step u ≤ 2 ^ u.log2 := Nat.pow_le_pow_right (by decide) (by omega)
  exact Nat.le_trans hpow (Nat.log2_self_le (by omega))

/-- A count that is a multiple of a gap is rounded to if it is at most half the gap away. -/
theorem roundUnits_of_near {num den u m : Nat} (hden : 0 < den)
    (hu : u = m * f.step (num / den))
    (hlow : 2 * (u * den) ≤ 2 * num + f.step (num / den) * den)
    (hhigh : 2 * num ≤ 2 * (u * den) + f.step (num / den) * den)
    (htie : m % 2 = 0 ∨ 2 * (u * den) < 2 * num + f.step (num / den) * den
      ∧ 2 * num < 2 * (u * den) + f.step (num / den) * den) : f.roundUnits num den = u := by
  have hD := Nat.mul_pos hden (f.step_pos (num / den))
  unfold roundUnits
  dsimp only
  generalize f.step (num / den) = s at hu hlow hhigh htie hD
  subst hu
  rw [show m * s * den = m * (den * s) by ac_rfl, Nat.mul_comm s den] at hlow hhigh htie
  rw [roundDiv_eq hD hlow hhigh htie]

/-- Ends are at most half a gap away. -/
theorem le_low (hfits : f.step u ∣ u) (hpos : 0 < u) : 4 * u ≤ f.low u + 2 * f.step u := by
  have := Nat.le_of_dvd hpos hfits
  unfold low
  split <;> omega

/-- The next count is not beyond the next power of two. -/
theorem add_step_le (hfits : f.step u ∣ u) : u + f.step u ≤ 2 ^ (u.log2 + 1) := by
  have hp := f.precision_pos
  have hpow : f.step u ∣ 2 ^ (u.log2 + 1) := Nat.pow_dvd_pow 2 (by omega)
  have hlt : u < 2 ^ (u.log2 + 1) := Nat.lt_log2_self
  have hle := Nat.le_of_dvd (Nat.sub_pos_of_lt hlt) (Nat.dvd_sub hpow hfits)
  omega

/-- A quotient between two powers of two has the gap of the first. -/
theorem step_div_eq {num den k : Nat} (hden : 0 < den) (hle : 2 ^ k * den ≤ num)
    (hlt : num < 2 ^ (k + 1) * den) : f.step (num / den) = 2 ^ (k + 1 - f.precision) := by
  have h1 : 2 ^ k ≤ num / den := (Nat.le_div_iff_mul_le hden).2 hle
  have h2 : num / den < 2 ^ (k + 1) := (Nat.div_lt_iff_lt_mul hden).2 hlt
  have hpos := Nat.two_pow_pos k
  have hlog : (num / den).log2 = k :=
    Nat.le_antisymm (Nat.lt_succ_iff.1 ((Nat.log2_lt (by omega)).2 h2))
      ((Nat.le_log2 (by omega)).2 h1)
  rw [step, hlog]

/-- A quotient in the interval of a count, with the gap of the count, is rounded to it. -/
theorem roundUnits_of_owns_step {num den u : Nat} (hden : 0 < den) (hpos : 0 < u)
    (hfits : f.step u ∣ u) (h : f.Owns u num den) (hstep : f.step (num / den) = f.step u) :
    f.roundUnits num den = u := by
  have hsd := Nat.mul_pos (f.step_pos u) hden
  have hlow := Nat.mul_le_mul_right den (le_low hfits hpos)
  have hhigh : f.high u * den = 4 * (u * den) + 2 * (f.step u * den) := by
    rw [high, Nat.add_mul, Nat.mul_assoc, Nat.mul_assoc]
  rw [Nat.add_mul, Nat.mul_assoc, Nat.mul_assoc] at hlow
  have hm : u = u / f.step (num / den) * f.step (num / den) := by
    rw [hstep, Nat.div_mul_cancel hfits]
  refine roundUnits_of_near hden hm ?_ ?_ ?_ <;> rw [hstep] <;> unfold Owns at h <;> omega

/-- Below a power of two that is owned with a smaller gap, the smaller gap counts. -/
theorem roundUnits_of_narrow {num den u : Nat} (hden : 0 < den) (hn : f.Narrow u)
    (hlow : f.low u * den ≤ 4 * num) (hlt : num < u * den) : f.roundUnits num den = u := by
  have hp := f.precision_pos
  obtain ⟨hs, hu⟩ := hn
  have hL : f.precision ≤ u.log2 := by
    refine Nat.le_of_not_lt fun hL => ?_
    rw [step, show u.log2 + 1 - f.precision = 0 by omega] at hs
    exact absurd hs (by decide)
  rw [low, if_pos ⟨hs, hu⟩] at hlow
  rw [step] at hlow
  generalize u.log2 = L at hu hL hlow
  obtain ⟨k, rfl⟩ : ∃ k, L = k + f.precision := ⟨L - f.precision, by omega⟩
  -- the gap below is half the gap above
  have hgap : 2 ^ (k + f.precision + 1 - f.precision) = 2 * 2 ^ k := by
    rw [show k + f.precision + 1 - f.precision = k + 1 by omega, Nat.pow_succ, Nat.mul_comm]
  have hhalf : u = 2 * 2 ^ (k + f.precision - 1) := by
    rw [hu, Nat.mul_comm, Nat.two_pow_pred_mul_two (by omega)]
  have hk : 2 ^ k ≤ 2 ^ (k + f.precision - 1) := Nat.pow_le_pow_right (by decide) (by omega)
  rw [hgap, Nat.sub_mul, Nat.mul_assoc, Nat.mul_assoc] at hlow
  have hstep : f.step (num / den) = 2 ^ k := by
    have hkd := Nat.mul_le_mul_right den hk
    have hud : u * den = 2 * (2 ^ (k + f.precision - 1) * den) := by rw [hhalf, Nat.mul_assoc]
    rw [step_div_eq (k := k + f.precision - 1) hden (by omega)
      (by rw [Nat.sub_add_cancel (by omega), ← hu]; exact hlt)]
    congr 1
    omega
  refine roundUnits_of_near (m := 2 ^ f.precision) hden ?_ ?_ ?_ (.inl ?_)
  · rw [hstep, hu, ← Nat.pow_add, Nat.add_comm]
  · rw [hstep]
    omega
  · omega
  · exact Nat.mod_eq_zero_of_dvd ⟨2 ^ (f.precision - 1), by
      rw [Nat.mul_comm, Nat.two_pow_pred_mul_two hp]⟩

/-- **Reading back.** A quotient in the interval of a count is rounded to it. -/
theorem roundUnits_of_owns {num den u : Nat} (hden : 0 < den) (hpos : 0 < u)
    (hfits : f.step u ∣ u) (h : f.Owns u num den) : f.roundUnits num den = u := by
  have hp := f.precision_pos
  have hs := f.step_pos u
  have hlow : f.low u * den ≤ 4 * num := by unfold Owns at h; omega
  have hle : 2 ^ u.log2 * den ≤ u * den := Nat.mul_le_mul_right den (Nat.log2_self_le (by omega))
  by_cases hnum : 2 ^ u.log2 * den ≤ num
  · -- from the power of two below it on, its own gap counts
    refine roundUnits_of_owns_step hden hpos hfits h (step_div_eq hden hnum ?_)
    have htop := Nat.mul_le_mul_right den (add_step_le hfits)
    have hhigh : f.high u * den = 4 * (u * den) + 2 * (f.step u * den) := by
      rw [high, Nat.add_mul, Nat.mul_assoc, Nat.mul_assoc]
    have hsd := Nat.mul_pos hs hden
    rw [Nat.add_mul] at htop
    unfold Owns at h
    omega
  · by_cases hn : f.Narrow u
    · exact roundUnits_of_narrow hden hn hlow (by omega)
    · -- the quotient is short of the power of two, so the gap is a unit
      have hlt : f.low u < 4 * 2 ^ u.log2 :=
        Nat.lt_of_mul_lt_mul_right (a := den) (by rw [Nat.mul_assoc]; omega)
      rw [low, if_neg hn] at hlt
      have hdvd : f.step u ∣ u - 2 ^ u.log2 :=
        Nat.dvd_sub hfits (Nat.pow_dvd_pow 2 (by omega))
      have hpow : u = 2 ^ u.log2 := by
        have := Nat.log2_self_le (n := u) (by omega)
        rcases Nat.eq_zero_or_pos (u - 2 ^ u.log2) with h0 | h0
        · omega
        · have := Nat.le_of_dvd h0 hdvd
          omega
      have hone : f.step u = 1 := by
        by_cases h1 : 1 < f.step u
        · exact absurd ⟨h1, hpow⟩ hn
        · omega
      have hshort : num / den < 2 ^ (u.log2 + 1) := by
        rw [Nat.div_lt_iff_lt_mul hden, Nat.pow_succ, Nat.mul_right_comm]
        omega
      have hsdvd := f.step_dvd_of_lt hshort
      rw [← step, hone, Nat.dvd_one] at hsdvd
      exact roundUnits_of_owns_step hden hpos hfits h (by rw [hsdvd, hone])

end Format

end AvatarBits
