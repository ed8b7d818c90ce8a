import AvatarBits.Analysis.Menu

/-!
# Pages that are opened

Opening pages from a queue of links goes on until every link of every opened page
has been followed, so no page that can be reached from the root is missed,
however links run in circles or hang in several places.

Results:
* `Menu.openFrom_closed`: what was queued and what is linked from an opened page is opened.
* `Menu.mem_opened`: every page that can be reached from the root is opened.
* `Menu.mem_opened_iff`: and no other page is.
* `Menu.nodup_openFrom`: no page is opened twice.
-/
namespace AvatarBits

namespace Menu

variable {m : Menu}

/-- Every queued page is opened or was seen before, and so is every page that an opened one links
to. -/
theorem openFrom_closed (m : Menu) (queue seen : List Nat) :
    (∀ i ∈ queue, i < m.pages.length → i ∈ seen ∨ i ∈ m.openFrom queue seen)
      ∧ ∀ i ∈ m.openFrom queue seen, ∀ page, m.pages[i]? = some page →
        ∀ j ∈ page.links, j < m.pages.length → j ∈ seen ∨ j ∈ m.openFrom queue seen := by
  fun_induction Menu.openFrom m queue seen with
  | case1 => exact ⟨fun i hi => (List.not_mem_nil hi).elim, fun i hi => (List.not_mem_nil hi).elim⟩
  | case2 i rest seen hs ih =>
    refine ⟨?_, ih.2⟩
    intro j hj hl
    rcases List.mem_cons.1 hj with rfl | hj
    · exact Or.inl hs
    · exact ih.1 j hj hl
  | case3 i rest seen hs hp ih =>
    refine ⟨?_, ih.2⟩
    intro j hj hl
    rcases List.mem_cons.1 hj with rfl | hj
    · exact absurd (List.getElem?_eq_none_iff.1 hp) (Nat.not_le_of_lt hl)
    · exact ih.1 j hj hl
  | case4 i rest seen hs page hp ih =>
    -- a page that has just been opened counts as seen for the rest
    have hmove : ∀ j, j ∈ i :: seen ∨ j ∈ m.openFrom (rest ++ page.links) (i :: seen) →
        j ∈ seen ∨ j ∈ i :: m.openFrom (rest ++ page.links) (i :: seen) := by
      intro j h
      rcases h with h | h
      · rcases List.mem_cons.1 h with rfl | h
        · exact Or.inr List.mem_cons_self
        · exact Or.inl h
      · exact Or.inr (List.mem_cons_of_mem _ h)
    constructor
    · intro j hj hl
      rcases List.mem_cons.1 hj with rfl | hj
      · exact Or.inr List.mem_cons_self
      · exact hmove j (ih.1 j (List.mem_append_left _ hj) hl)
    · intro k hk q hq j hj hl
      rcases List.mem_cons.1 hk with rfl | hk
      · rw [hp] at hq
        cases hq
        exact hmove j (ih.1 j (List.mem_append_right _ hj) hl)
      · exact hmove j (ih.2 k hk q hq j hj hl)

theorem mem_openFrom_of_reaches {i : Nat} {page : MenuPage} (h : m.Reaches i page) :
    m.pages[i]? = some page ∧ i ∈ m.openFrom [m.root] [] := by
  obtain ⟨hq, hc⟩ := m.openFrom_closed [m.root] []
  induction h with
  | root hp =>
    have hl := (List.getElem?_eq_some_iff.1 hp).1
    exact ⟨hp, (hq _ List.mem_cons_self hl).resolve_left List.not_mem_nil⟩
  | step _ hj hn ih =>
    have hl := (List.getElem?_eq_some_iff.1 hn).1
    exact ⟨hn, (hc _ ih.2 _ ih.1 _ hj hl).resolve_left List.not_mem_nil⟩

/-- Every page that can be reached from the root is opened. -/
theorem mem_opened {i : Nat} {page : MenuPage} (h : m.Reaches i page) : page ∈ m.opened := by
  obtain ⟨hp, hi⟩ := mem_openFrom_of_reaches h
  exact List.mem_filterMap.2 ⟨i, hi, hp⟩

/-- If what is queued can be reached from the root, so can all that is opened. -/
theorem openFrom_reached (m : Menu) (queue seen : List Nat)
    (hq : ∀ i ∈ queue, ∀ page, m.pages[i]? = some page → m.Reaches i page) :
    ∀ i ∈ m.openFrom queue seen, ∃ page, m.pages[i]? = some page ∧ m.Reaches i page := by
  fun_induction Menu.openFrom m queue seen with
  | case1 => exact fun i hi => (List.not_mem_nil hi).elim
  | case2 i rest seen hs ih => exact ih fun j hj => hq j (List.mem_cons_of_mem _ hj)
  | case3 i rest seen hs hp ih => exact ih fun j hj => hq j (List.mem_cons_of_mem _ hj)
  | case4 i rest seen hs page hp ih =>
    have hi : m.Reaches i page := hq i List.mem_cons_self page hp
    intro k hk
    rcases List.mem_cons.1 hk with rfl | hk
    · exact ⟨page, hp, hi⟩
    · refine ih ?_ k hk
      intro j hj next hn
      rcases List.mem_append.1 hj with hj | hj
      · exact hq j (List.mem_cons_of_mem _ hj) next hn
      · exact .step hi hj hn

/-- What is opened from the root is what can be reached from it. -/
theorem mem_openFrom_root_iff {i : Nat} :
    i ∈ m.openFrom [m.root] [] ↔ ∃ page, m.pages[i]? = some page ∧ m.Reaches i page := by
  constructor
  · apply m.openFrom_reached
    intro j hj page hp
    obtain rfl := List.mem_singleton.1 hj
    exact .root hp
  · exact fun ⟨_, _, h⟩ => (mem_openFrom_of_reaches h).2

/-- The pages that are opened are those that can be reached from the root. -/
theorem mem_opened_iff {page : MenuPage} : page ∈ m.opened ↔ ∃ i, m.Reaches i page := by
  refine ⟨?_, fun ⟨_, h⟩ => mem_opened h⟩
  intro h
  obtain ⟨i, hi, hp⟩ := List.mem_filterMap.1 h
  obtain ⟨page', hp', hr⟩ := mem_openFrom_root_iff.1 hi
  rw [hp] at hp'
  obtain rfl := Option.some.inj hp'
  exact ⟨i, hr⟩

/-- No page is opened twice, and none that was seen before. -/
theorem nodup_openFrom (m : Menu) (queue seen : List Nat) :
    (m.openFrom queue seen).Nodup ∧ ∀ i ∈ m.openFrom queue seen, i ∉ seen := by
  fun_induction Menu.openFrom m queue seen with
  | case1 => exact ⟨List.nodup_nil, List.forall_mem_nil _⟩
  | case2 i rest seen hs ih => exact ih
  | case3 i rest seen hs hp ih => exact ih
  | case4 i rest seen hs page hp ih =>
    obtain ⟨hnodup, hnew⟩ := ih
    refine ⟨List.nodup_cons.2 ⟨fun hi => hnew i hi List.mem_cons_self, hnodup⟩, ?_⟩
    intro j hj
    rcases List.mem_cons.1 hj with rfl | hj
    · exact hs
    · exact fun h => hnew j hj (List.mem_cons_of_mem _ h)

end Menu

end AvatarBits
