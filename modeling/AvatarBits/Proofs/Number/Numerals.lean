import AvatarBits.Number.Reading
import AvatarBits.Number.Shortest

/-!
# Numerals that are written

A text takes a numeral only if it has a digit wherever one is due and no zero in
front of its whole digits. The numerals of integers are of that form, and so are
those of numbers, since no positive magnitude has a shortest numeral of zero.

* `Numeral.Proper`: the form that a text takes.

Results:
* `Numeral.proper_ofInt`, `Single.proper_of_numeral?`: what is written is of that form.
* `Numeral.read_ofInt`: the numeral of an integer reads as that integer.
-/
namespace AvatarBits

/-! Powers are those of the core library here, whatever else is imported. -/
attribute [local instance (2000)] instPowNat

/-- A numeral has whole digits, none of them a zero in front of another, and digits behind a point
and in a power of ten. -/
structure Numeral.Proper (n : Numeral) : Prop where
  whole : ∃ d ds, n.whole = d :: ds ∧ (d = 0 → ds = [])
  frac : n.frac ≠ some []
  power : ∀ s, n.power ≠ some (s, [])

/-! ## Digits of natural numbers -/

/-- Only zero starts with a zero. -/
theorem digits_eq_cons (n : Nat) : ∃ d ds, digits n = d :: ds ∧ (d = 0 → n = 0) := by
  fun_induction digits n with
  | case1 n h => exact ⟨_, [], rfl, fun hd => congrArg Fin.val hd⟩
  | case2 n h ih =>
    obtain ⟨d, ds, he, hd⟩ := ih
    exact ⟨d, ds ++ [⟨n % 10, _⟩], by rw [he, List.cons_append], fun h0 => by
      have := hd h0
      omega⟩

theorem digits_zero : digits 0 = [0] := by
  rw [digits, dif_pos (by decide)]
  rfl

theorem digits_ne_nil (n : Nat) : digits n ≠ [] := by
  obtain ⟨d, ds, he, -⟩ := digits_eq_cons n
  simp [he]

/-! ## Integers -/

namespace Numeral

theorem proper_ofInt (i : Int) : (ofInt i).Proper where
  whole := by
    obtain ⟨d, ds, he, hd⟩ := digits_eq_cons i.natAbs
    refine ⟨d, ds, he, fun h0 => ?_⟩
    rw [hd h0, digits_zero] at he
    exact (List.cons.inj he).2.symm
  frac := by simp [ofInt]
  power := by simp [ofInt]

theorem le_foldl_digits (sig : Nat) (ds : List Digit) :
    sig ≤ ds.foldl (fun n d => 10 * n + d.val) sig := by
  induction ds generalizing sig with
  | nil => exact Nat.le_refl _
  | cons d ds ih => exact Nat.le_trans (by omega) (ih (10 * sig + d.val))

/-- Digits that fit eight bytes are all read. -/
theorem absorb_eq {sig : Nat} {ds : List Digit}
    (h : ds.foldl (fun n d => 10 * n + d.val) sig < longTop) :
    absorb sig ds = (ds.foldl (fun n d => 10 * n + d.val) sig, []) := by
  induction ds generalizing sig with
  | nil => rfl
  | cons d ds ih =>
    have hle := le_foldl_digits (10 * sig + d.val) ds
    rw [List.foldl_cons] at h ⊢
    rw [absorb, if_pos (Nat.lt_of_le_of_lt hle h), ih h]

/-- The numeral of an integer of eight bytes reads as that integer. -/
theorem read_ofInt {i : Int} (h : i.natAbs < longTop) (hn : i < 0 → 2 * i.natAbs ≤ longTop) :
    (ofInt i).read = some (.int i) := by
  have ha : absorb 0 (digits i.natAbs) = (i.natAbs, []) := by
    have hv := digits_value i.natAbs
    rw [Digit.value] at hv
    rw [absorb_eq (by rwa [hv]), hv]
  have hi : (ofInt i).int? = some i := by
    by_cases hneg : i < 0
    · have hpos : i ≠ 0 ∧ 2 * i.natAbs ≤ longTop := ⟨by omega, hn hneg⟩
      simp only [int?, ofInt, ha, hneg, decide_true, if_true, Int.natAbs_pos, hpos, ne_eq,
        not_false_eq_true, and_self]
      exact congrArg some (by omega)
    · simp only [int?, ofInt, ha, hneg, decide_false, Bool.false_eq_true, if_false]
      exact congrArg some (by omega)
  rw [read, hi]

end Numeral

/-! ## Numbers -/

/-- Of two neighbours, the one that is taken is not zero if zero is not inside. -/
theorem pos_of_picked {inside : Nat → Bool} {nearer : Bool} {d e : Nat} (h0 : inside 0 = false)
    (h : (if inside d && inside (d + 1) then if nearer then some d else some (d + 1)
      else if inside d then some d else if inside (d + 1) then some (d + 1) else none) = some e) :
    0 < e := by
  rcases Nat.eq_zero_or_pos d with rfl | hd
  · simp only [h0, Bool.false_and, Bool.false_eq_true, if_false] at h
    split at h <;> cases h
    exact Nat.one_pos
  · repeat' split at h
    all_goals cases h
    all_goals omega

/-- The shortest digits of a positive magnitude are not zero. -/
theorem Format.onGrid?_pos {f : Format} {u : Nat} (hu : 0 < u) {k : Int} {d : Nat}
    (h : f.onGrid? u k = some d) : 0 < d := by
  have hstep : f.step u ≤ u := by
    have hp := f.precision_pos
    have hpow : f.step u ≤ 2 ^ u.log2 := Nat.pow_le_pow_right (by decide) (by omega)
    exact Nat.le_trans hpow (Nat.log2_self_le (by omega))
  unfold onGrid? at h
  extract_lets s narrow low high even point den inside digits below above at h
  have hden : 0 < den := by
    unfold den
    split
    · decide
    · exact Nat.pow_pos (by decide)
  have hlow : 0 < low := by
    unfold low s
    split <;> omega
  -- zero lies below the lower end of the interval
  have hzero : inside 0 = false := by
    have := Nat.mul_pos hlow hden
    unfold inside
    split
    · simp
      omega
    · simp
  exact pos_of_picked hzero h

theorem Format.shortest_zero {f : Format} {u : Nat} (hu : 0 < u) (h : (f.shortest u).1 = 0) :
    (f.shortest u).2 = 0 := by
  unfold shortest at h ⊢
  cases hs : (f.grids u).findSome? fun k => (f.onGrid? u k).map (·, k) with
  | none => rfl
  | some r =>
    rw [hs] at h
    obtain ⟨k, -, hk⟩ := List.exists_of_findSome?_eq_some hs
    obtain ⟨d, hd, rfl⟩ := Option.map_eq_some_iff.1 hk
    exact absurd h (Nat.ne_of_gt (onGrid?_pos hu hd))

theorem Layout.proper_numeral (l : Layout) (neg : Bool) {d : Nat} {k : Int} (h : d = 0 → k = 0) :
    (l.numeral neg d k).Proper := by
  obtain ⟨x, xs, hds, hx⟩ := digits_eq_cons d
  unfold numeral
  dsimp only
  rw [hds]
  split
  · split
    · exact ⟨⟨0, [], rfl, fun _ => rfl⟩, by simp, by simp⟩
    · refine ⟨⟨x, _, by rw [List.take_succ_cons, List.cons_append], fun h0 => ?_⟩, ?_, by simp⟩
      · have hd := hx h0
        rw [hd, digits_zero] at hds
        obtain ⟨-, rfl⟩ := List.cons.inj hds
        simp [h hd]
      · split <;> simp_all
  · refine ⟨⟨x, [], rfl, fun _ => rfl⟩, ?_, fun s e => ?_⟩
    · cases xs <;> simp
    · exact digits_ne_nil _ (Prod.mk.inj (Option.some.inj e)).2

/-- The numeral of a finite number is of the form that a text takes. -/
theorem Single.proper_of_numeral? {x : Single} {n : Numeral} (h : x.numeral? = some n) :
    n.Proper := by
  cases x with
  | nan => cases h
  | infinite => cases h
  | finite neg u hf =>
    simp only [numeral?, Binary.numeral?] at h
    split at h
    · cases h
      exact Layout.proper_numeral _ _ fun _ => rfl
    · cases h
      exact Layout.proper_numeral _ _ fun hd => Format.shortest_zero (by omega) hd

end AvatarBits
