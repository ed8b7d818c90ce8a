import AvatarBits.Proofs.Number.Gaps
import AvatarBits.Proofs.Number.Picking
import Mathlib.Tactic.Ring

/-!
# Digits that read back

Digits that are taken for a single number lie between the ends of its interval.
They are read through a rounded power of ten and rounded to `Double`, and no end
is crossed on the way, since decimals of so few digits keep a distance from the
ends unless they meet them. So rounding once more gives the number back.

* `EndSided`: a decimal stays on its side of an end.
* `readUnits`: the count of `Double` that digits are read as.

Results:
* `EndSided.compare`: digits compare with an end as what they are read as does.
* `roundUnits_readUnits`: what the digits of a single number are read as is rounded to it.
-/
namespace AvatarBits

/-! Powers are those of the core library here, whatever else is imported. -/
attribute [local instance (2000)] instPowNat

namespace Format

variable {u : Nat}

/-! ## Ends of an interval -/

/-- Gap of a single number as a power of two. -/
theorem step_single (u : Nat) : Format.single.step u = 2 ^ (u.log2 + 1 - 24) := rfl

/-- The significand of a single number has 24 bits. -/
theorem div_step_lt (u : Nat) : u / Format.single.step u < 2 ^ 24 := by
  rw [Nat.div_lt_iff_lt_mul (Format.single.step_pos u), step_single, ← Nat.pow_add]
  exact Nat.lt_of_lt_of_le Nat.lt_log2_self (Nat.pow_le_pow_right (by decide) (by omega))

theorem log2_lt (hu : 0 < u) (hfits : Format.single.Fits u) : u.log2 < 277 := by
  have : u.log2 < Format.single.top := (Nat.log2_lt (by omega)).2 hfits.1
  exact this

/-- A decimal is read on its side of an end of an interval, which is `w * 2 ^ c` quarter units. -/
def EndSided (d : Nat) (k : Int) (e : Nat) : Prop :=
  ∃ w c, e = w * 2 ^ c ∧ w < 2 ^ 25 ∧ Sided (d * Format.single.gridNum k) (w * (gridDen k * 2 ^ c))
    (d * (nearTen k.toNat * 2 ^ 151)) (w * (nearTen (-k).toNat * 2 ^ c))
    (nearTen (-k).toNat * 2 ^ c)

/-- A multiple of half a gap, or of a quarter of one, as a numerator and a power of two. -/
theorem endSided {d : Nat} {k : Int} (hd : 0 < d) (hk : k ≤ 38) {w c : Nat} (hw : w < 2 ^ 25)
    (hc : c < 255) (h : 2 ^ c * gridDen k ≤ Format.single.gridNum k
      ∨ 2 * (w * 2 ^ c * gridDen k) + 2 ^ c * gridDen k ≤ 2 * (d * Format.single.gridNum k)
      ∨ 2 * (d * Format.single.gridNum k) + 2 ^ c * gridDen k ≤ 2 * (w * 2 ^ c * gridDen k)) :
    EndSided d k (w * 2 ^ c) := by
  refine ⟨w, c, rfl, hw, sided hk hc hd hw ?_⟩
  rw [Nat.mul_assoc, Nat.mul_comm (2 ^ c)] at h
  exact h

section
variable {d : Nat} {k : Int} (hu : 0 < u) (hfits : Format.single.Fits u) (hd : 0 < d) (hk : k ≤ 38)
  (ht : Format.single.Taken u (Format.single.gridNum k) (gridDen k) d)
include hu hfits hd hk ht

theorem endSided_high : EndSided d k (Format.single.high u) := by
  have hl := log2_lt hu hfits
  have hw := div_step_lt u
  have hgap : 2 ^ (u.log2 + 1 - 24 + 1) = 2 * Format.single.step u := by
    rw [step_single, Nat.pow_succ, Nat.mul_comm]
  have hend : (2 * (u / Format.single.step u) + 1) * 2 ^ (u.log2 + 1 - 24 + 1)
      = Format.single.high u := by
    rw [hgap]
    calc (2 * (u / Format.single.step u) + 1) * (2 * Format.single.step u)
        = 4 * (u / Format.single.step u * Format.single.step u) + 2 * Format.single.step u := by
          ring
      _ = Format.single.high u := by rw [Nat.div_mul_cancel hfits.2, high]
  have hlow := low_mul_le (f := .single) hu (gridDen k)
  have hhigh := Format.single.high_mul u (gridDen k)
  have habove := ht.not_above
  rw [← hend]
  refine endSided hd hk (by omega) (by omega) ?_
  rw [hend, hgap, hhigh, Nat.mul_assoc]
  omega

/-- Below a power of two with a smaller gap below. -/
theorem endSided_narrow (hn : Format.single.Narrow u) : EndSided d k (Format.single.low u) := by
  have hl := log2_lt hu hfits
  obtain ⟨hs, hpow⟩ := hn
  have hlog : 24 ≤ u.log2 := by
    refine Nat.le_of_not_lt fun hlog => ?_
    rw [step_single, show u.log2 + 1 - 24 = 0 by omega] at hs
    exact absurd hs (by decide)
  have hu' : 2 ^ 23 * Format.single.step u = u := by
    rw [step_single, ← Nat.pow_add, show 23 + (u.log2 + 1 - 24) = u.log2 by omega, ← hpow]
  have hlow : Format.single.low u = 4 * u - Format.single.step u := if_pos ⟨hs, hpow⟩
  have hend : (2 ^ 25 - 1) * 2 ^ (u.log2 + 1 - 24) = Format.single.low u := by
    rw [hlow, ← step_single]
    omega
  have hhigh := Format.single.high_mul u (gridDen k)
  have hlow : Format.single.low u * gridDen k + Format.single.step u * gridDen k
      = 4 * u * gridDen k := by
    rw [← Nat.add_mul, hlow, Nat.sub_add_cancel (by omega)]
  have hbelow := ht.not_below
  rw [← hend]
  refine endSided hd hk (by omega) (by omega) ?_
  rw [hend, ← step_single]
  omega

/-- Below any other number. -/
theorem endSided_wide (hn : ¬ Format.single.Narrow u) : EndSided d k (Format.single.low u) := by
  have hl := log2_lt hu hfits
  have hw := div_step_lt u
  have hgap : 2 ^ (u.log2 + 1 - 24 + 1) = 2 * Format.single.step u := by
    rw [step_single, Nat.pow_succ, Nat.mul_comm]
  have hlow : Format.single.low u = 4 * u - 2 * Format.single.step u := if_neg hn
  have hend : (2 * (u / Format.single.step u) - 1) * 2 ^ (u.log2 + 1 - 24 + 1)
      = Format.single.low u := by
    rw [hgap, hlow, Nat.sub_mul, Nat.one_mul]
    congr 1
    calc 2 * (u / Format.single.step u) * (2 * Format.single.step u)
        = 4 * (u / Format.single.step u * Format.single.step u) := by ring
      _ = 4 * u := by rw [Nat.div_mul_cancel hfits.2]
  have hhigh := Format.single.high_mul u (gridDen k)
  have hlow : Format.single.low u * gridDen k + 2 * (Format.single.step u * gridDen k)
      = 4 * u * gridDen k := by
    have := step_le_self (f := .single) hu
    rw [← Nat.mul_assoc, ← Nat.add_mul, hlow, Nat.sub_add_cancel (by omega)]
  have hbelow := ht.not_below
  rw [← hend]
  refine endSided hd hk (by omega) (by omega) ?_
  rw [hend, hgap, Nat.mul_assoc]
  omega

end

/-! ## Reading digits -/

section
variable {x y x' w c t den : Nat} (ht : 28 ≤ t) (hden : 0 < den) (hw : w < 2 ^ 25)
  (h : Sided x y x' (w * (den * 2 ^ c)) (den * 2 ^ c))
include ht hden hw h

/-- What is read on a side of a fraction is rounded on that side, if a unit is `2 ^ t` counts. -/
theorem roundUnits_of_sided :
    (x = y → Format.double.roundUnits (x' * 2 ^ t) den = w * 2 ^ c * 2 ^ t)
      ∧ (y < x → w * 2 ^ c * 2 ^ t < Format.double.roundUnits (x' * 2 ^ t) den)
      ∧ (x < y → Format.double.roundUnits (x' * 2 ^ t) den < w * 2 ^ c * 2 ^ t) := by
  obtain ⟨s, rfl⟩ := Nat.exists_eq_add_of_le ht
  -- both sides in counts
  have hend : w * (den * 2 ^ c) * 2 ^ (28 + s) = w * 2 ^ c * 2 ^ (28 + s) * den := by ring
  have hunit : den * 2 ^ c * 2 ^ (28 + s) = 2 ^ 28 * (2 ^ (c + s) * den) := by ring
  have hpow : w * 2 ^ c * 2 ^ (28 + s) = w * 2 ^ (28 + (c + s)) := by ring
  have he : w * 2 ^ c * 2 ^ (28 + s) < 2 ^ (Format.double.precision + (c + s)) := by
    rw [hpow, show Format.double.precision + (c + s) = 25 + (28 + (c + s)) by
      rw [show Format.double.precision = 53 from rfl]; omega, Nat.pow_add 2 25]
    exact Nat.mul_lt_mul_of_pos_right hw (Nat.two_pow_pos _)
  refine ⟨fun hxy => ?_, fun hxy => ?_, fun hxy => ?_⟩
  · have hx : x' = w * (den * 2 ^ c) := by
      unfold Sided at h
      omega
    rw [hx, hend]
    refine Format.double.roundUnits_mul hden ?_
    rw [hpow]
    exact Format.double.step_dvd_shift (Nat.lt_trans hw (by decide))
  · have hx : 2 ^ 29 * (w * (den * 2 ^ c)) + den * 2 ^ c < 2 ^ 29 * x' := by
      unfold Sided at h
      omega
    have hx := Nat.mul_lt_mul_of_pos_right hx (Nat.two_pow_pos (28 + s))
    rw [Nat.add_mul, Nat.mul_assoc, Nat.mul_assoc (2 ^ 29) x', hend, hunit] at hx
    exact lt_roundUnits _ hden he (by omega)
  · have hx : 2 ^ 29 * x' + den * 2 ^ c < 2 ^ 29 * (w * (den * 2 ^ c)) := by
      unfold Sided at h
      omega
    have hx := Nat.mul_lt_mul_of_pos_right hx (Nat.two_pow_pos (28 + s))
    rw [Nat.add_mul, Nat.mul_assoc, Nat.mul_assoc (2 ^ 29) (w * _), hend, hunit] at hx
    exact roundUnits_lt _ hden he (by omega)

end

/-- The count that digits are read as, if a quarter unit is `2 ^ t` counts. -/
def readUnits (t d : Nat) (k : Int) : Nat :=
  Format.double.roundUnits (d * (nearTen k.toNat * 2 ^ 151) * 2 ^ t) (nearTen (-k).toNat)

/-- Digits compare with an end as what they are read as does. -/
theorem EndSided.compare {d e t : Nat} {k : Int} (ht : 28 ≤ t) (h : EndSided d k e) :
    (d * Format.single.gridNum k = e * gridDen k → readUnits t d k = e * 2 ^ t)
      ∧ (e * gridDen k < d * Format.single.gridNum k → e * 2 ^ t < readUnits t d k)
      ∧ (d * Format.single.gridNum k < e * gridDen k → readUnits t d k < e * 2 ^ t) := by
  obtain ⟨w, c, rfl, hw, hs⟩ := h
  rw [Nat.mul_assoc w, Nat.mul_comm _ (gridDen k), ← Nat.mul_assoc w, Nat.mul_assoc w]
  exact roundUnits_of_sided ht (nearTen_pos _) hw hs

/-- **Digits.** Digits that are taken for a single number are read as a double number that is rounded
to it. -/
theorem roundUnits_readUnits {d t : Nat} {k : Int} (ht : 28 ≤ t) (hu : 0 < u)
    (hfits : Format.single.Fits u) (hd : 0 < d) (hk : k ≤ 38)
    (htaken : Format.single.Taken u (Format.single.gridNum k) (gridDen k) d) :
    Format.single.roundUnits (readUnits t d k * 2 ^ Format.single.scale) (2 ^ (151 + t)) = u := by
  have hlow : EndSided d k (Format.single.low u) := by
    by_cases hn : Format.single.Narrow u
    · exact endSided_narrow hu hfits hd hk htaken hn
    · exact endSided_wide hu hfits hd hk htaken hn
  have hlow := hlow.compare ht
  have hhigh := (endSided_high hu hfits hd hk htaken).compare ht
  have hin := htaken.inside
  refine roundUnits_of_owns (Nat.two_pow_pos _) hu hfits.2 ?_
  have hscale : ∀ e, e * 2 ^ (151 + t) = 4 * (e * 2 ^ t * 2 ^ 149) := by
    intro e
    ring
  have hpos := Nat.two_pow_pos 149
  unfold Inside at hin
  unfold Owns
  rw [hscale, hscale, show Format.single.scale = 149 from rfl]
  simp only [Nat.mul_lt_mul_left (show 0 < 4 by decide), Nat.mul_lt_mul_right hpos,
    Nat.mul_le_mul_left_iff (show 0 < 4 by decide), Nat.mul_le_mul_right_iff hpos]
  omega

end Format

end AvatarBits
