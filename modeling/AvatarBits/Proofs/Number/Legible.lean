import AvatarBits.Proofs.Number.Decimals

/-!
# Finite numbers are read back

The text of a number of an avatar description is not read as such a number at
once: its digits are read as an integer, multiplied with or divided by a rounded
power of ten as `Double`, and the result is rounded again. For a finite number
that comes back to the number all the same, whether its digits are laid out
around a point or with an explicit power.

* `Numeral.Stands`: a numeral that is no integer, and the decimal it stands for.
* `Binary.IsFinite`: neither an infinity nor not a number.

Results:
* `Layout.stands_single`: the decimal that laid out digits stand for.
* `Numeral.Stands.read`: what such a numeral is read as.
* `Single.read_numeral`: a finite number is read back from its own numeral.
-/
namespace AvatarBits

/-! Powers are those of the core library here, whatever else is imported. -/
attribute [local instance (2000)] instPowNat

/-! ## Digits and their value -/

namespace Digit

/-- Zeros in front do not count. -/
theorem value_zeros_append (j : Nat) (ds : List Digit) :
    value (List.replicate j 0 ++ ds) = value ds := by
  induction j with
  | zero => rfl
  | succ j ih =>
    rw [List.replicate_succ, List.cons_append, ← ih]
    rfl

/-- Zeros behind are powers of ten. -/
theorem value_append_zeros (ds : List Digit) (j : Nat) :
    value (ds ++ List.replicate j 0) = value ds * 10 ^ j := by
  induction j with
  | zero => simp
  | succ j ih =>
    rw [List.replicate_succ', ← List.append_assoc, value_append_singleton, ih, Nat.pow_succ]
    rw [show (0 : Digit).val = 0 from rfl, Nat.add_zero, Nat.mul_comm 10, Nat.mul_assoc]

end Digit

/-- A number is below the power of ten of its length. -/
theorem lt_pow_digits (n : Nat) : n < 10 ^ (digits n).length := by
  fun_induction digits n with
  | case1 n h => simpa using h
  | case2 n h ih =>
    rw [List.length_append, List.length_singleton, Nat.pow_succ]
    omega

/-- A number below a power of ten has no more digits. -/
theorem digits_length_le {n j : Nat} (h : n < 10 ^ (j + 1)) : (digits n).length ≤ j + 1 := by
  induction j generalizing n with
  | zero => rw [digits, dif_pos (by simpa using h)]; exact Nat.le_refl 1
  | succ j ih =>
    rw [digits]
    split
    · simp
    · rw [List.length_append, List.length_singleton]
      exact Nat.succ_le_succ (ih (by rw [Nat.pow_succ] at h; omega))

namespace Numeral

/-- Digits that fit eight bytes together are all read. -/
theorem significand_eq {n : Numeral} (h : Digit.value (n.whole ++ n.frac.getD []) < longTop) :
    n.significand
      = (Digit.value (n.whole ++ n.frac.getD []), -((n.frac.getD []).length : Int)) := by
  rw [Digit.value, List.foldl_append] at h ⊢
  have hwhole := absorb_eq (Nat.lt_of_le_of_lt (le_foldl_digits _ _) h)
  unfold significand
  rw [hwhole]
  dsimp only
  rw [absorb_eq h]
  simp

/-- A power that fits four bytes is read as it was written. -/
theorem writtenPower_eq {n : Numeral} {e : Int} (h : e.natAbs ≤ wordMax)
    (hn : n.power = some (decide (e < 0), digits e.natAbs)) : n.writtenPower = some e := by
  unfold writtenPower
  rw [hn]
  dsimp only
  rw [digits_value, if_neg (by omega), Binary.signed_natAbs]

/-- A numeral that is no integer stands for `d * 10 ^ k`. -/
structure Stands (n : Numeral) (d : Nat) (k : Int) : Prop where
  not_int : n.int? = none
  parts : ∃ shift e, n.significand = (d, shift) ∧ n.writtenPower = some e ∧ shift + e = k

/-- Digits around a point. -/
theorem stands_positional (neg : Bool) {d : Nat} (whole frac : List Digit)
    (hv : Digit.value (whole ++ frac) = d) (hd : d < longTop) :
    (Numeral.mk neg whole (some frac) none).Stands d (-(frac.length : Int)) where
  not_int := rfl
  parts := by
    have h := significand_eq (n := ⟨neg, whole, some frac, none⟩) (by
      rw [Option.getD_some, hv]
      exact hd)
    rw [Option.getD_some, hv] at h
    exact ⟨_, 0, h, rfl, Int.add_zero _⟩

section
variable (neg : Bool) {ds : List Digit} {d : Nat} (hv : Digit.value ds = d)
include hv

/-- Digits behind the point and some zeros. -/
theorem stands_behind (hd : d < longTop) (j : Nat) :
    (Numeral.mk neg [0] (some (List.replicate j 0 ++ ds)) none).Stands d
      (-((j + ds.length : Nat) : Int)) := by
  have h := stands_positional neg (d := d) [0] (List.replicate j 0 ++ ds)
    (by rw [← List.append_assoc, ← hv]; exact Digit.value_zeros_append (j + 1) ds) hd
  rwa [List.length_append, List.length_replicate] at h

/-- Digits with a point among them. -/
theorem stands_among (hd : d < longTop) (n : Nat) :
    (Numeral.mk neg (ds.take n) (some (ds.drop n)) none).Stands d
      (-((ds.length - n : Nat) : Int)) := by
  have h := stands_positional neg (d := d) (ds.take n) (ds.drop n)
    (by rw [List.take_append_drop, hv]) hd
  rwa [List.length_drop] at h

/-- Digits and some zeros before the point, and a zero behind it. -/
theorem stands_before {j : Nat} (hd : d * 10 ^ j * 10 < longTop) :
    (Numeral.mk neg (ds ++ List.replicate j 0) (some [0]) none).Stands (d * 10 ^ j * 10) (-1) :=
  stands_positional neg (ds ++ List.replicate j 0) [0] (by
    rw [List.append_assoc, ← List.replicate_succ', Digit.value_append_zeros, hv, Nat.pow_succ,
      Nat.mul_assoc]) hd

end

end Numeral

/-- Digits with one in front of the point and an explicit power. -/
theorem Numeral.stands_power (neg : Bool) {ds : List Digit} {d : Nat} {e : Int}
    (hv : Digit.value ds = d) (hd : d < longTop) (he : e.natAbs ≤ wordMax) :
    (Numeral.mk neg (ds.take 1) (if (ds.drop 1).isEmpty then none else some (ds.drop 1))
      (some (decide (e < 0), digits e.natAbs))).Stands d (e - (ds.length - 1 : Nat)) where
  not_int := by
    unfold int?
    split <;> simp_all
  parts := by
    have hfrac : (if (ds.drop 1).isEmpty then none else some (ds.drop 1)).getD [] = ds.drop 1 := by
      cases h : ds.drop 1 <;> rfl
    have h := significand_eq (n := ⟨neg, ds.take 1, if (ds.drop 1).isEmpty then none
      else some (ds.drop 1), some (decide (e < 0), digits e.natAbs)⟩) (by
        rw [hfrac, List.take_append_drop, hv]
        exact hd)
    rw [hfrac, List.take_append_drop, hv, List.length_drop] at h
    exact ⟨_, e, h, writtenPower_eq he rfl, by omega⟩

theorem Layout.numeral_neg (l : Layout) (neg : Bool) (d : Nat) (k : Int) :
    (l.numeral neg d k).neg = neg := by
  unfold numeral
  dsimp only
  split
  · split <;> rfl
  · rfl

/-- The digits of a layout stand for the number, maybe with a zero more behind the point. -/
theorem Layout.stands_single (neg : Bool) {d : Nat} {k : Int} (hd : d < 2 ^ 53) (hk : -58 ≤ k)
    (hk' : k ≤ 38) : (Layout.single.numeral neg d k).Stands d k
      ∨ 0 ≤ k ∧ k ≤ 12 ∧ d * 10 ^ k.toNat < 10 ^ 13
        ∧ (Layout.single.numeral neg d k).Stands (d * 10 ^ k.toNat * 10) (-1) := by
  have hlen := digits_length_le (n := d) (j := 15) (by omega)
  have hlen' : 0 < (digits d).length := List.length_pos_iff.2 (digits_ne_nil d)
  have hlt := lt_pow_digits d
  have hvalue := digits_value d
  have hlong : d < Numeral.longTop := Nat.lt_trans hd (by decide)
  unfold Layout.numeral
  generalize digits d = ds at *
  dsimp only
  split
  · rename_i hpos
    have hpos : -6 ≤ (ds.length : Int) - 1 + k ∧ (ds.length : Int) - 1 + k ≤ 12 := hpos
    split
    · left
      have h := Numeral.stands_behind neg hvalue hlong
        (((ds.length : Int) - 1 + k).natAbs - 1)
      rwa [show -(((((ds.length : Int) - 1 + k).natAbs - 1 + ds.length : Nat)) : Int) = k by omega]
        at h
    · by_cases hle : ds.length ≤ ((ds.length : Int) - 1 + k).natAbs + 1
      · right
        obtain ⟨j, rfl⟩ := Int.eq_ofNat_of_zero_le (show 0 ≤ k by omega)
        have hn : ((ds.length : Int) - 1 + j).natAbs + 1 = ds.length + j := by omega
        rw [hn, List.take_of_length_le (by omega), List.drop_of_length_le (by omega),
          Nat.add_sub_cancel_left]
        have hsmall : d * 10 ^ j < 10 ^ 13 :=
          calc d * 10 ^ j < 10 ^ ds.length * 10 ^ j :=
                Nat.mul_lt_mul_of_pos_right hlt (Nat.pow_pos (by decide))
            _ = 10 ^ (ds.length + j) := (Nat.pow_add ..).symm
            _ ≤ 10 ^ 13 := Nat.pow_le_pow_right (by decide) (by omega)
        refine ⟨by omega, by omega, hsmall, Numeral.stands_before neg hvalue ?_⟩
        unfold Numeral.longTop
        omega
      · left
        have hn : ((ds.length : Int) - 1 + k).natAbs + 1 ≤ ds.length := by omega
        rw [Nat.sub_eq_zero_of_le hn, List.replicate_zero, List.append_nil,
          if_neg (by rw [List.isEmpty_iff, List.drop_eq_nil_iff]; omega)]
        have h := Numeral.stands_among neg hvalue hlong
          (((ds.length : Int) - 1 + k).natAbs + 1)
        rwa [show -((ds.length - (((ds.length : Int) - 1 + k).natAbs + 1) : Nat) : Int) = k by omega]
          at h
  · left
    have h := Numeral.stands_power neg (e := (ds.length : Int) - 1 + k) hvalue hlong
      (by unfold wordMax; omega)
    rwa [show (ds.length : Int) - 1 + k - (ds.length - 1 : Nat) = k by omega] at h

/-! ## Reading through a double number -/

namespace Binary

variable {f : Format}

theorem mul_two_pow_lt {m j s t : Nat} (hm : m < 2 ^ j) (h : j + s ≤ t) : m * 2 ^ s < 2 ^ t :=
  calc m * 2 ^ s < 2 ^ j * 2 ^ s := Nat.mul_lt_mul_of_pos_right hm (Nat.two_pow_pos s)
    _ = 2 ^ (j + s) := (Nat.pow_add ..).symm
    _ ≤ 2 ^ t := Nat.pow_le_pow_right (by decide) h

theorem ofRatio_of_lt {s : Bool} {num den u : Nat} (hu : f.roundUnits num den = u)
    (h : u < 2 ^ f.top) : ∃ hf, (ofRatio s num den : Binary f) = .finite s u hf := by
  subst hu
  exact ⟨_, dif_pos h⟩

end Binary

namespace Double

open Format

/-- Powers of ten of short digits are integers of the format. -/
theorem ten_eq {n : Nat} (h : n ≤ 58) :
    ∃ hf, ten n = .finite false (nearTen n * 2 ^ Format.double.scale) hf := by
  refine Binary.ofRatio_of_lt (Format.double.roundUnits_shift _ _) ?_
  have hten : 10 ^ n ≤ 10 ^ 58 := Nat.pow_le_pow_right (by decide) h
  have hnear : nearTen n < 2 ^ 200 := by
    have := tenError_le n
    unfold tenError at this
    omega
  exact Binary.mul_two_pow_lt hnear (by decide)

theorem ofInt_eq {d : Nat} (hd : d < 2 ^ 53) :
    ∃ hf, (Binary.ofInt d : Double) = .finite false (d * 2 ^ Format.double.scale) hf := by
  have hneg : decide ((d : Int) < 0) = false := decide_eq_false (by omega)
  unfold Binary.ofInt
  rw [hneg, Int.natAbs_natCast]
  exact Binary.ofRatio_of_lt (Format.double.roundUnits_of_dvd (Format.double.step_dvd_shift hd))
    (Binary.mul_two_pow_lt hd (by decide))

section
variable {d n t y : Nat} (hd : d < 2 ^ 53) (hn : n ≤ 58) (hy : y < 2 ^ Format.double.top)
include hd hn hy

/-- Digits over a power of ten. -/
theorem overTen_eq
    (h : Format.double.roundUnits (d * 2 ^ Format.double.scale) (nearTen n) = y) :
    ∃ hf, overTen (.ofInt d) n = .finite false y hf := by
  obtain ⟨hx, hx'⟩ := ofInt_eq hd
  obtain ⟨ht, ht'⟩ := ten_eq hn
  have hs := Nat.two_pow_pos Format.double.scale
  have hne : nearTen n * 2 ^ Format.double.scale ≠ 0 :=
    Nat.ne_of_gt (Nat.mul_pos (nearTen_pos n) hs)
  rw [overTen, if_pos (Nat.le_trans hn (by decide)), hx', ht']
  have hdiv : (Binary.finite false _ hx / Binary.finite false _ ht : Double)
      = .ofRatio false (d * 2 ^ Format.double.scale * 2 ^ Format.double.scale)
        (nearTen n * 2 ^ Format.double.scale) := by
    change Binary.div _ _ = _
    rw [Binary.div, if_neg hne, Bool.xor_false]
  rw [hdiv]
  exact Binary.ofRatio_of_lt (by rw [Format.double.roundUnits_mul_right _ _ hs, h]) hy

/-- Digits times a power of ten. -/
theorem timesTen_eq
    (h : Format.double.roundUnits (d * nearTen n * 2 ^ Format.double.scale) 1 = y) :
    ∃ hf, timesTen? (.ofInt d) n = some (.finite false y hf) := by
  obtain ⟨hx, hx'⟩ := ofInt_eq hd
  obtain ⟨ht, ht'⟩ := ten_eq hn
  have hs := Nat.two_pow_pos Format.double.scale
  have hmul : (Binary.finite false _ hx * Binary.finite false _ ht : Double)
      = .ofRatio false (d * 2 ^ Format.double.scale * (nearTen n * 2 ^ Format.double.scale))
        (2 ^ Format.double.scale) := by
    change Binary.mul _ _ = _
    rw [Binary.mul, Bool.xor_false]
  have hround : Format.double.roundUnits
      (d * 2 ^ Format.double.scale * (nearTen n * 2 ^ Format.double.scale))
        (2 ^ Format.double.scale) = y := by
    rw [← Nat.mul_assoc, Nat.mul_right_comm d, ← h]
    conv => lhs; arg 3; rw [← Nat.one_mul (2 ^ Format.double.scale)]
    exact Format.double.roundUnits_mul_right _ _ hs
  obtain ⟨hf, he⟩ := Binary.ofRatio_of_lt (s := false) hround hy
  rw [timesTen?, if_pos (Nat.le_trans hn (by decide)), hx', ht', hmul, he]
  exact ⟨hf, rfl⟩

end

end Double

namespace Format

/-- A count that digits are read as, in the double format. -/
theorem readUnits_eq {t : Nat} (ht : Format.double.scale = 151 + t) (d : Nat) (k : Int) :
    readUnits t d k = Format.double.roundUnits
      (d * nearTen k.toNat * 2 ^ Format.double.scale) (nearTen (-k).toNat) := by
  rw [readUnits, ht, Nat.pow_add]
  simp only [Nat.mul_assoc]

theorem nearTen_zero : nearTen 0 = 1 := by decide

end Format

namespace Numeral

open Format

/-- A numeral is read as the double number that its digits give. -/
theorem Stands.read {n : Numeral} {neg : Bool} {d t : Nat} {k : Int} (h : n.Stands d k)
    (hneg : n.neg = neg)
    (ht : Format.double.scale = 151 + t) (hd : d < 2 ^ 53) (hk : -58 ≤ k) (hk' : k ≤ 38)
    (hy : readUnits t d k < 2 ^ Format.double.top) :
    ∃ hf, n.read = some (.real (.finite neg (readUnits t d k) hf)) := by
  obtain ⟨shift, e, hsig, hpower, hsum⟩ := h.parts
  have hy' := readUnits_eq ht d k
  -- over a power of ten or times one
  have hmagnitude : ∃ hf, (if k < 0 then some (Double.overTen (.ofInt d) k.natAbs)
      else Double.timesTen? (.ofInt d) k.natAbs) = some (.finite false (readUnits t d k) hf) := by
    split
    · rw [show k.toNat = 0 by omega, nearTen_zero, Nat.mul_one,
        show (-k).toNat = k.natAbs by omega] at hy'
      obtain ⟨hf, he⟩ := Double.overTen_eq hd (by omega) hy hy'.symm
      exact ⟨hf, congrArg some he⟩
    · rw [show k.toNat = k.natAbs by omega, show (-k).toNat = 0 by omega, nearTen_zero] at hy'
      exact Double.timesTen_eq hd (by omega) hy hy'.symm
  obtain ⟨hf, hmagnitude⟩ := hmagnitude
  have hdouble : n.double? = some (.finite neg (readUnits t d k) hf) := by
    unfold double?
    rw [hsig, hpower, hneg]
    dsimp only
    rw [hsum, hmagnitude, Option.map_some]
    cases neg <;> rfl
  exact ⟨hf, by rw [Numeral.read, h.not_int, hdouble]; rfl⟩

end Numeral

/-! ## Single numbers -/

namespace Format

theorem nearTen_one : nearTen 1 = 10 := by decide

theorem nearTen_small : ∀ n < 13, nearTen n = 10 ^ n := by decide

/-- Zeros that are moved in front of the point are read as if they were behind it. -/
theorem readUnits_shift {t d : Nat} (ht : Format.double.scale = 151 + t) {k : Int} (h0 : 0 ≤ k)
    (hk : k ≤ 12) : readUnits t (d * 10 ^ k.toNat * 10) (-1) = readUnits t d k := by
  rw [readUnits_eq ht, readUnits_eq ht, show (-k).toNat = 0 by omega,
    show (-1 : Int).toNat = 0 from rfl, show (-(-1) : Int).toNat = 1 from rfl, nearTen_zero,
    nearTen_one, nearTen_small k.toNat (by omega), Nat.mul_one, Nat.mul_right_comm]
  conv => lhs; arg 3; rw [← Nat.one_mul 10]
  exact Format.double.roundUnits_mul_right _ _ (by decide)

/-- Digits that are taken for a single number are read within the range. -/
theorem readUnits_lt {u d t : Nat} {k : Int} (ht : Format.double.scale = 151 + t) (hu : 0 < u)
    (hfits : Format.single.Fits u) (hd : 0 < d) (hk : k ≤ 38)
    (htaken : Format.single.Taken u (Format.single.gridNum k) (gridDen k) d) :
    readUnits t d k < 2 ^ Format.double.top := by
  have ht' : 151 + t = 1074 := ht.symm
  have hl := log2_lt hu hfits
  have hcompare := (endSided_high hu hfits hd hk htaken).compare (t := t) (by omega)
  have hin := htaken.inside
  have hle : readUnits t d k ≤ Format.single.high u * 2 ^ t := by
    unfold Inside at hin
    omega
  have hhigh : Format.single.high u < 2 ^ (u.log2 + 3 + 1) :=
    Nat.lt_of_le_of_lt (high_le hfits.2) (Nat.pow_lt_pow_succ (by decide))
  exact Nat.lt_of_le_of_lt hle (Binary.mul_two_pow_lt hhigh (by
    rw [show Format.double.top = 2098 from rfl]
    omega))

end Format

/-- A number that is neither infinite nor not a number. -/
def Binary.IsFinite {f : Format} (x : Binary f) : Prop := ∃ neg u h, x = .finite neg u h

instance {f : Format} : (x : Binary f) → Decidable x.IsFinite
  | .finite neg u h => isTrue ⟨neg, u, h, rfl⟩
  | .nan => isFalse nofun
  | .infinite _ => isFalse nofun

theorem Binary.Is.isFinite {f : Format} {x : Binary f} {a : Int} (h : x.Is a) : x.IsFinite := by
  obtain ⟨neg, u, hu, rfl, -⟩ := h
  exact ⟨neg, u, hu, rfl⟩

namespace Single

/-- Zeros keep their sign. -/
theorem read_zero (neg : Bool) (hf : Format.single.Fits 0) :
    ∃ n y, numeral? (.finite neg 0 hf) = some n ∧ n.read = some (.real y)
      ∧ y.round .single = .finite neg 0 hf := by
  have hzero : Format.single.roundUnits (0 * 2 ^ Format.single.scale)
      (2 ^ Format.double.scale) = 0 := by
    rw [Nat.zero_mul]
    exact Format.single.roundUnits_zero (Nat.two_pow_pos _)
  obtain ⟨hf', he⟩ := Binary.ofRatio_of_lt (s := neg) hzero hf.1
  exact ⟨_, .zero neg, rfl, by cases neg <;> decide +kernel, he⟩

theorem read_positive (neg : Bool) {u : Nat} (hu : 0 < u) (hf : Format.single.Fits u) :
    ∃ n y, numeral? (.finite neg u hf) = some n ∧ n.read = some (.real y)
      ∧ y.round .single = .finite neg u hf := by
  obtain ⟨t, ht, ht'⟩ : ∃ t, Format.double.scale = 151 + t ∧ 28 ≤ t := ⟨923, rfl, by decide⟩
  obtain ⟨d, k, hshort, htaken, hd, hlong, hk, hk'⟩ := Format.shortest_single hu hf
  have hy := Format.readUnits_lt ht hu hf hd hk' htaken
  have hneg := Layout.numeral_neg .single neg d k
  have hnumeral : numeral? (.finite neg u hf) = some (Layout.single.numeral neg d k) := by
    simp only [numeral?, Binary.numeral?, hshort, if_neg (Nat.ne_of_gt hu)]
  have hread : ∃ h, (Layout.single.numeral neg d k).read
      = some (.real (.finite neg (Format.readUnits t d k) h)) := by
    rcases Layout.stands_single neg hlong hk hk' with hs | ⟨h0, h12, hsmall, hs⟩
    · exact hs.read hneg ht hlong hk hk' hy
    · rw [← Format.readUnits_shift ht h0 h12] at hy ⊢
      exact hs.read hneg ht (by omega) (by decide) (by decide) hy
  obtain ⟨h, hread⟩ := hread
  have hback := Format.roundUnits_readUnits ht' hu hf hd hk' htaken
  rw [← ht] at hback
  obtain ⟨hf', he⟩ := Binary.ofRatio_of_lt (s := neg) hback hf.1
  exact ⟨_, _, hnumeral, hread, he⟩

/-- **Finite numbers.** A finite number is read back from its own numeral: the digits stand for a
double number that is rounded to it. -/
theorem read_numeral {x : Single} (h : x.IsFinite) :
    ∃ n y, x.numeral? = some n ∧ n.read = some (.real y) ∧ y.round .single = x := by
  obtain ⟨neg, u, hf, rfl⟩ := h
  rcases Nat.eq_zero_or_pos u with rfl | hu
  · exact read_zero neg hf
  · exact read_positive neg hu hf

end Single

end AvatarBits
