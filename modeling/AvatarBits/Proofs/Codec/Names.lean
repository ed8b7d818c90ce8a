import AvatarBits.Codec.Assembly

/-!
# Names of bits and nodes

Generated names are a fixed text between variable parts, so they are told apart
character by character: a number's digits hold no underscore, no point and no
letter.

Results:
* `bitName_eq_iff`: a bit's name gives its parameter and its number.
* `bitName_ne_parameter`, `bitName_ne_isLocal`: no bit is called like its parameter or the built-in
  one.
* `Place.name_inj`: a node's name gives its role and its place.
* `Place.name_ne_scaffold`: no node is called like a state of the scaffold.
-/
namespace AvatarBits

/-! ## Numbers in names -/

theorem repr_inj {m n : Nat} (h : Nat.toDigits 10 m = Nat.toDigits 10 n) : m = n := by
  rw [← Nat.ofDigitChars_ten_toDigits (n := m), h, Nat.ofDigitChars_ten_toDigits]

theorem digit_of_mem {n : Nat} {c : Char} (h : c ∈ Nat.toDigits 10 n) : c.isDigit = true :=
  Nat.isDigit_of_mem_toDigits (by decide) (by decide) h

/-! ## Bits -/

theorem toList_bitName (p : String) (k : Nat) :
    (bitName p k).toList = p.toList ++ ('.' :: 'b' :: 'i' :: 't' :: '_' :: Nat.toDigits 10 k) := by
  have h : bitName p k = p ++ ".bit_" ++ Nat.repr k := rfl
  rw [h, String.toList_append, String.toList_append, Nat.toList_repr, List.append_assoc]
  rfl

/-- A bit's name gives its parameter and its number: the number is what follows the last
underscore. -/
theorem bitName_eq_iff {p q : String} {j k : Nat} : bitName p j = bitName q k ↔ p = q ∧ j = k := by
  refine ⟨?_, fun ⟨hp, hj⟩ => by rw [hp, hj]⟩
  intro h
  have hu : ∀ n : Nat, ∀ c ∈ (Nat.toDigits 10 n).reverse, (c != '_') = true := by
    intro n c hc
    exact bne_iff_ne.2 fun e => absurd (digit_of_mem (e ▸ List.mem_reverse.1 hc)) (by decide)
  have hr := congrArg (fun s => s.toList.reverse) h
  simp only [toList_bitName, List.reverse_append, List.reverse_cons, List.append_assoc] at hr
  have ht := congrArg (List.takeWhile (· != '_')) hr
  simp only [List.takeWhile_append_of_pos (hu _), List.cons_append, List.takeWhile_cons,
    bne_self_eq_false, Bool.false_eq_true, if_false, List.append_nil, List.nil_append] at ht
  obtain rfl := repr_inj (List.reverse_inj.1 ht)
  refine ⟨String.toList_inj.1 (List.reverse_inj.1 ?_), rfl⟩
  simpa using hr

theorem bitName_inj {p : String} {j k : Nat} : bitName p j = bitName p k ↔ j = k :=
  bitName_eq_iff.trans (and_iff_right rfl)

theorem bitName_ne_parameter (p : String) (k : Nat) : bitName p k ≠ p := by
  intro h
  have h' := congrArg (fun s => s.toList.length) h
  simp only [toList_bitName, List.length_append, List.length_cons] at h'
  omega

theorem bitName_ne_isLocal (p : String) (k : Nat) : bitName p k ≠ isLocalName := by
  intro h
  have h' := congrArg (fun s => '.' ∈ s.toList) h
  simp only [toList_bitName, List.mem_append, List.mem_cons, true_or, or_true] at h'
  exact absurd (h'.mp trivial) (by decide)

/-! ## Nodes -/

namespace Place

/-- What stands behind the role's word and an underscore in a node's name. -/
def suffix (p : Place) : List Char :=
  if p.level = 0 then Nat.toDigits 10 p.index
  else 'l' :: (Nat.toDigits 10 p.level ++ '_' :: Nat.toDigits 10 p.index)

theorem toList_name (role : Role) (p : Place) :
    (name role p).toList = role.word.toList ++ '_' :: p.suffix := by
  unfold name suffix
  split
  · have h : s!"{role.word}_{p.index}" = role.word ++ "_" ++ Nat.repr p.index := rfl
    rw [h, String.toList_append, String.toList_append, Nat.toList_repr, List.append_assoc]
    rfl
  · have h : s!"{role.word}_l{p.level}_{p.index}"
        = role.word ++ "_l" ++ Nat.repr p.level ++ "_" ++ Nat.repr p.index := rfl
    rw [h]
    simp only [String.toList_append, Nat.toList_repr, List.append_assoc]
    rfl

theorem suffix_inj {p q : Place} (h : p.suffix = q.suffix) : p = q := by
  obtain ⟨l, i⟩ := p
  obtain ⟨l', i'⟩ := q
  have noLetter : ∀ {n : Nat} {cs : List Char}, Nat.toDigits 10 n ≠ 'l' :: cs := fun e =>
    absurd (digit_of_mem (e ▸ List.mem_cons_self)) (by decide)
  unfold suffix at h
  by_cases h0 : l = 0 <;> by_cases h0' : l' = 0 <;> simp only [h0, h0', if_true, if_false] at h ⊢
  · simp [repr_inj h]
  · exact absurd h noLetter
  · exact absurd h.symm noLetter
  · -- the first underscore ends the level
    have hu : ∀ n : Nat, ∀ c ∈ Nat.toDigits 10 n, (c != '_') = true := by
      intro n c hc
      have : c ≠ '_' := fun e => absurd (digit_of_mem (e ▸ hc)) (by decide)
      simpa using this
    have ht := congrArg (List.takeWhile (· != '_')) (List.cons.inj h).2
    simp only [List.takeWhile_append_of_pos (hu _), List.takeWhile_cons, bne_self_eq_false,
      Bool.false_eq_true, if_false, List.append_nil] at ht
    have hr := (List.cons.inj h).2
    rw [ht, List.append_cancel_left_eq] at hr
    simp [repr_inj ht, repr_inj (List.cons.inj hr).2]

/-- A node's name gives its role and its place. -/
theorem name_inj {r s : Role} {p q : Place} (h : name r p = name s q) : r = s ∧ p = q := by
  have h' := congrArg String.toList h
  rw [toList_name, toList_name] at h'
  have hr : r = s := by
    cases r <;> cases s
    · rfl
    · exact absurd (List.cons.inj h').1 (by decide)
    · exact absurd (List.cons.inj h').1 (by decide)
    · rfl
  subst hr
  rw [List.append_cancel_left_eq] at h'
  exact ⟨rfl, suffix_inj (List.cons.inj h').2⟩

/-- No node is called like one of the states that a layer starts with. -/
theorem name_ne_scaffold (r : Role) (p : Place) (s : String)
    (hs : s = "entry" ∨ s = "local" ∨ s = "remote") : name r p ≠ s := by
  intro h
  have h' := congrArg (fun t => '_' ∈ t.toList) h
  simp only [toList_name, List.mem_append, List.mem_cons, true_or, or_true] at h'
  rcases hs with rfl | rfl | rfl <;> exact absurd (h'.mp trivial) (by decide)

end Place

end AvatarBits
