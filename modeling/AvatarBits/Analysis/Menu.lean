import AvatarBits.Avatar.Menu

/-!
# Opening every page of a menu

Pages are opened in the order in which links to them turn up, each once; links
to nowhere are passed over.

* `Menu.opened`: the pages that can be opened from the root, in order.
-/
namespace AvatarBits

/-- Number of positions below `n` that are not in a list. -/
def unseen (n : Nat) (seen : List Nat) : Nat := (List.range n).countP fun i => !seen.contains i

theorem unseen_cons_lt {n i : Nat} {seen : List Nat} (hi : i < n) (hs : i ∉ seen) :
    unseen n (i :: seen) < unseen n seen := by
  unfold unseen
  induction n with
  | zero => omega
  | succ n ih =>
    rw [List.range_succ, List.countP_append, List.countP_append]
    have hle : (List.range n).countP (fun j => !(i :: seen).contains j)
        ≤ (List.range n).countP (fun j => !seen.contains j) := by
      apply List.countP_mono_left
      intro j _ h
      simp only [List.contains_cons, Bool.not_or, Bool.and_eq_true] at h
      exact h.2
    have hlast : (i :: seen).contains n = (i == n || seen.contains n) := by
      rw [List.contains_cons, BEq.comm]
    simp only [List.countP_cons, List.countP_nil, hlast]
    by_cases h : i = n
    · subst h
      have : seen.contains i = false := by simpa using hs
      simp only [this, BEq.rfl, Bool.true_or, Bool.not_true, Bool.not_false, if_true]
      simp only [Bool.false_eq_true, if_false]
      omega
    · have hlt := ih (by omega)
      have : (i == n) = false := by simpa using h
      simp only [this, Bool.false_or]
      omega

namespace Menu

/-- Positions of the pages opened from a queue of links, given those opened before. -/
def openFrom (m : Menu) : (queue seen : List Nat) → List Nat
  | [], _ => []
  | i :: rest, seen =>
    if _hs : i ∈ seen then m.openFrom rest seen
    else
      match _hp : m.pages[i]? with
      | none => m.openFrom rest seen
      | some page => i :: m.openFrom (rest ++ page.links) (i :: seen)
termination_by queue seen => (unseen m.pages.length seen, queue.length)
decreasing_by
  · exact Prod.Lex.right _ (by simp)
  · exact Prod.Lex.right _ (by simp)
  · exact Prod.Lex.left _ _ (unseen_cons_lt (List.getElem?_eq_some_iff.1 _hp).1 _hs)

/-- The pages that can be opened from the root, in the order in which they are. -/
def opened (m : Menu) : List MenuPage := (m.openFrom [m.root] []).filterMap (m.pages[·]?)

end Menu

end AvatarBits
