import AvatarBits.Proofs.Analysis.Closed
import AvatarBits.Proofs.Analysis.Pages
import Mathlib.Order.Bounds.Basic

/-!
# What the analysis finds, exactly

Which values count for a parameter can be said without any order of looking: the
default of its first candidate and the controls on pages that can be reached,
and then what any machine of a layer of its own writes to the parameter or
compares it with, wherever the behaviour or the transition hangs. The bound of a
candidate is the greatest whole part of these values, neither more nor less,
although pages are opened from a queue, machines are nested, and bounds are
raised one comparison at a time.

* `Avatar.Offered`: values of defaults and menu.
* `Avatar.Handled`: values of machines.

Results:
* `Avatar.mem_shownValues`, `Avatar.mem_handled`: the closed form looks at these values.
* `Avatar.literal_le`: no bound is below a value that the avatar names.
* `Avatar.analyze_exact`: bounds and dropped candidates are their greatest whole parts.
-/
namespace AvatarBits

/-! ## Values that count -/

/-- A value that an action can give a parameter by itself: the value set, either end of a random
range, and either end of the range that a copy is converted to. -/
inductive DriverAction.Gives : DriverAction → String → Single → Prop
  | value (name : String) (x : Single) : Gives (.set name x) name x
  | low (name : String) (low high chance : Single) : Gives (.random name low high chance) name low
  | high (name : String) (low high chance : Single) : Gives (.random name low high chance) name high
  | destMin (name source : String) (range : RangeConversion) :
    Gives (.copy name source true range) name range.destMin
  | destMax (name source : String) (range : RangeConversion) :
    Gives (.copy name source true range) name range.destMax

/-- A threshold that a condition compares a parameter with. -/
inductive Condition.Compares : Condition → String → Single → Prop
  | greater (name : String) (x : Single) : Compares ⟨.greater, name, x⟩ name x
  | less (name : String) (x : Single) : Compares ⟨.less, name, x⟩ name x
  | equals (name : String) (x : Single) : Compares ⟨.equals, name, x⟩ name x
  | notEqual (name : String) (x : Single) : Compares ⟨.notEqual, name, x⟩ name x

/-- A transition of a machine: from its entry, from any state, from one of its states, or from a
machine nested in it. -/
def StateMachine.Transits (m : StateMachine) (t : Transition) : Prop :=
  t ∈ m.entryTransitions ∨ t ∈ m.anyStateTransitions ∨ (∃ s ∈ m.states, t ∈ s.transitions)
    ∨ ∃ n ∈ m.children, t ∈ n.transitions

/-- A machine at any depth of a layer that shares no other layer's machine. -/
def Avatar.Runs (a : Avatar) (m : StateMachine) : Prop :=
  ∃ c ∈ a.controllers, ∃ l ∈ c.layers, l.isAlias = false ∧ l.machine.Contains m

/-- A value that a parameter has by default or from the menu: the default of the first candidate of
that name, and what a control on a page that can be reached sets it to. -/
inductive Avatar.Offered (a : Avatar) (name : String) : Single → Prop
  | default {parameters : List Parameter} {p : Parameter} :
    a.parameters = some parameters →
    (parameters.filter Parameter.isCandidate).find? (·.name == name) = some p →
    Offered a name p.default
  | control {m : Menu} {i : Nat} {page : MenuPage} {k : Control} :
    a.menu = some m → m.Reaches i page → k ∈ page.controls → k.parameter = some name →
    Offered a name k.value

/-- A value that a machine gives a parameter or compares it with. -/
inductive Avatar.Handled (a : Avatar) (name : String) : Single → Prop
  | action {m : StateMachine} {b : Behaviour} {d : DriverAction} {x : Single} :
    a.Runs m → m.Behaves b → d ∈ b.actions → d.Gives name x → Handled a name x
  | condition {m : StateMachine} {t : Transition} {k : Condition} {x : Single} :
    a.Runs m → m.Transits t → k ∈ t.conditions → k.Compares name x → Handled a name x

/-! ## The closed form looks at these values -/

theorem DriverAction.gives_iff {d : DriverAction} {name : String} {x : Single} :
    d.Gives name x ↔ d.target = name ∧ x ∈ d.literals := by
  constructor
  · intro h
    cases h <;> simp [target, literals]
  · rintro ⟨rfl, hx⟩
    cases d with
    | set n y => obtain rfl := List.mem_singleton.1 hx; exact .value n _
    | add n y => cases hx
    | random n low high chance =>
      rcases List.mem_cons.1 hx with rfl | hx
      · exact .high n low _ chance
      · obtain rfl := List.mem_singleton.1 hx; exact .low n _ high chance
    | copy n source convert range =>
      cases convert with
      | false => cases hx
      | true =>
        rcases List.mem_cons.1 hx with rfl | hx
        · exact .destMin n source range
        · obtain rfl := List.mem_singleton.1 hx; exact .destMax n source range

theorem Condition.compares_iff {k : Condition} {name : String} {x : Single} :
    k.Compares name x ↔ k.parameter = name ∧ x ∈ k.literals := by
  constructor
  · intro h
    cases h <;> simp [literals]
  · rintro ⟨rfl, hx⟩
    obtain ⟨mode, n, y⟩ := k
    cases mode with
    | isSet | notSet => cases hx
    | greater => obtain rfl := List.mem_singleton.1 hx; exact .greater n _
    | less => obtain rfl := List.mem_singleton.1 hx; exact .less n _
    | equals => obtain rfl := List.mem_singleton.1 hx; exact .equals n _
    | notEqual => obtain rfl := List.mem_singleton.1 hx; exact .notEqual n _

namespace StateMachine

mutual

/-- All machines that are listed for a machine are in it. -/
theorem contains_of_mem_all : ∀ (m : StateMachine) {k : StateMachine}, k ∈ m.all → m.Contains k
  | ⟨n, d, s, e, a, c, b⟩, k, hk => by
    rw [all] at hk
    rcases List.mem_cons.1 hk with rfl | hk
    · exact .self _
    · obtain ⟨x, hx, hxk⟩ := contains_of_mem_allOf c hk
      exact .nested hx hxk

theorem contains_of_mem_allOf : ∀ (ns : List (Nested StateMachine)) {k : StateMachine},
    k ∈ allOf ns → ∃ x ∈ ns, x.machine.Contains k
  | [], k, hk => by
    rw [allOf] at hk
    cases hk
  | ⟨m, t⟩ :: ns, k, hk => by
    rw [allOf] at hk
    rcases List.mem_append.1 hk with hk | hk
    · exact ⟨⟨m, t⟩, List.mem_cons_self, contains_of_mem_all m hk⟩
    · obtain ⟨x, hx, hxk⟩ := contains_of_mem_allOf ns hk
      exact ⟨x, List.mem_cons_of_mem _ hx, hxk⟩

end

theorem mem_ownActions {m : StateMachine} {d : DriverAction} :
    d ∈ m.ownActions ↔ ∃ b, m.Behaves b ∧ d ∈ b.actions := by
  refine ⟨?_, fun ⟨_, hb, hd⟩ => hb.mem_ownActions hd⟩
  intro h
  obtain ⟨b, hb, hd⟩ := List.mem_flatMap.1 h
  refine ⟨b, ?_, hd⟩
  rcases List.mem_append.1 hb with hb | hb
  · exact Or.inl hb
  · exact Or.inr (List.mem_flatMap.1 hb)

theorem mem_ownConditions {m : StateMachine} {k : Condition} :
    k ∈ m.ownConditions ↔ ∃ t, m.Transits t ∧ k ∈ t.conditions := by
  have ht : ∀ t, t ∈ m.ownTransitions ↔ m.Transits t := by
    intro t
    simp only [ownTransitions, Transits, List.mem_append, List.mem_flatMap, or_assoc]
  unfold ownConditions
  rw [List.mem_flatMap]
  simp only [ht]

/-- The values that a machine by itself names. -/
theorem mem_named {m : StateMachine} {name : String} {x : Single} :
    (name, x) ∈ m.named ↔ (∃ b d, m.Behaves b ∧ d ∈ b.actions ∧ d.Gives name x)
      ∨ ∃ t k, m.Transits t ∧ k ∈ t.conditions ∧ k.Compares name x := by
  simp only [named, List.mem_append, List.mem_flatMap, List.mem_map, Prod.mk.injEq,
    mem_ownActions, mem_ownConditions, DriverAction.gives_iff, Condition.compares_iff]
  constructor
  · rintro (⟨d, ⟨b, hb, hd⟩, y, hy, hn, rfl⟩ | ⟨k, ⟨t, ht, hk⟩, y, hy, hn, rfl⟩)
    · exact Or.inl ⟨b, d, hb, hd, hn, hy⟩
    · exact Or.inr ⟨t, k, ht, hk, hn, hy⟩
  · rintro (⟨b, d, hb, hd, hn, hx⟩ | ⟨t, k, ht, hk, hn, hx⟩)
    · exact Or.inl ⟨d, ⟨b, hb, hd⟩, x, hx, hn, rfl⟩
    · exact Or.inr ⟨k, ⟨t, ht, hk⟩, x, hx, hn, rfl⟩

end StateMachine

theorem Menu.mem_named {m : Menu} {name : String} {x : Single} :
    (name, x) ∈ m.named ↔
      ∃ i page k, m.Reaches i page ∧ k ∈ page.controls ∧ k.parameter = some name ∧ k.value = x := by
  simp only [Menu.named, MenuPage.named, List.mem_flatMap, Option.mem_toList, Option.map_eq_some_iff,
    Prod.mk.injEq, Menu.mem_opened_iff]
  constructor
  · rintro ⟨page, ⟨i, hp⟩, k, hk, n, hn, rfl, rfl⟩
    exact ⟨i, page, k, hp, hk, hn, rfl⟩
  · rintro ⟨i, page, k, hp, hk, hn, rfl⟩
    exact ⟨page, ⟨i, hp⟩, k, hk, name, hn, rfl, rfl⟩

namespace Avatar

theorem mem_machines_iff {a : Avatar} {m : StateMachine} : m ∈ a.machines ↔ a.Runs m := by
  constructor
  · intro h
    obtain ⟨l, hl, hm⟩ := List.mem_flatMap.1 h
    obtain ⟨c, hc, hl⟩ := List.mem_flatMap.1 hl
    split at hm
    · cases hm
    · exact ⟨c, hc, l, hl, Bool.eq_false_iff.2 ‹_›, StateMachine.contains_of_mem_all _ hm⟩
  · rintro ⟨c, hc, l, hl, ha, hm⟩
    exact mem_machines hc hl ha hm

/-- The values that count before the machines. -/
theorem mem_shownValues {a : Avatar} {name : String} {x : Single} :
    x ∈ a.shownValues name ↔ a.Offered name x := by
  unfold shownValues
  rw [List.mem_append, mem_valuesOf]
  constructor
  · rintro (h | h)
    · obtain ⟨p, hp, rfl⟩ : ∃ p, a.candidates.find? (·.name == name) = some p ∧ p.default = x := by
        simpa [firstDefault] using h
      cases hps : a.parameters with
      | none =>
        rw [candidates, hps] at hp
        cases hp
      | some parameters => exact .default hps (candidates_eq hps ▸ hp)
    · cases hm : a.menu with
      | none => rw [hm] at h; cases h
      | some m =>
        rw [hm] at h
        obtain ⟨i, page, k, hp, hk, hn, rfl⟩ := Menu.mem_named.1 h
        exact .control hm hp hk hn
  · intro h
    cases h with
    | default hps hp =>
      refine Or.inl ?_
      rw [firstDefault, candidates_eq hps, hp]
      exact List.mem_cons_self
    | @control m i page k hm hp hk hn =>
      refine Or.inr ?_
      rw [hm]
      exact Menu.mem_named.2 ⟨i, page, k, hp, hk, hn, rfl⟩

/-- The values that count because of the machines. -/
theorem mem_handled {a : Avatar} {name : String} {x : Single} :
    x ∈ valuesOf (a.machines.flatMap StateMachine.named) name ↔ a.Handled name x := by
  rw [mem_valuesOf, List.mem_flatMap]
  constructor
  · rintro ⟨m, hm, hx⟩
    rcases StateMachine.mem_named.1 hx with ⟨b, d, hb, hd, hg⟩ | ⟨t, k, ht, hk, hc⟩
    · exact .action (mem_machines_iff.1 hm) hb hd hg
    · exact .condition (mem_machines_iff.1 hm) ht hk hc
  · intro h
    cases h with
    | @action m b d _ hm hb hd hg =>
      exact ⟨m, mem_machines_iff.2 hm, StateMachine.mem_named.2 (Or.inl ⟨b, d, hb, hd, hg⟩)⟩
    | @condition m t k _ hm ht hk hc =>
      exact ⟨m, mem_machines_iff.2 hm, StateMachine.mem_named.2 (Or.inr ⟨t, k, ht, hk, hc⟩)⟩

end Avatar

/-! ## The greatest of them -/

/-- The peak of a list that goes on is the greatest of the peak so far and the whole parts of the
rest. -/
theorem isGreatest_peak_append (xs ys : List Single) :
    IsGreatest (insert (peak xs) (Binary.truncate '' {y | y ∈ ys})) (peak (xs ++ ys)) := by
  have hxs := peak_nonneg xs
  rw [peak_append]
  constructor
  · by_cases hle : peak ys ≤ peak xs
    · exact Or.inl (by omega)
    · have hmax : max (peak xs) (peak ys) = peak ys := by omega
      rw [hmax]
      rcases peak_eq ys with h0 | ⟨y, hy, hp⟩
      · omega
      · exact Or.inr ⟨y, hy, hp⟩
  · rintro v (rfl | ⟨y, hy, rfl⟩)
    · omega
    · have := le_peak hy; omega

namespace Avatar

theorem isGreatest_shownPeak (a : Avatar) (name : String) :
    IsGreatest (insert 0 (Binary.truncate '' {x | a.Offered name x})) (a.shownPeak name) := by
  have h := isGreatest_peak_append [] (a.shownValues name)
  simp only [mem_shownValues] at h
  exact h

theorem isGreatest_fullPeak (a : Avatar) (name : String) :
    IsGreatest (insert (a.shownPeak name) (Binary.truncate '' {x | a.Handled name x}))
      (a.fullPeak name) := by
  have h := isGreatest_peak_append (a.shownValues name)
    (valuesOf (a.machines.flatMap StateMachine.named) name)
  simp only [mem_handled] at h
  exact h

/-! ## Bounds of an analysis -/

section
variable {a : Avatar} {name : String} {b : Int} (h : (name, b) ∈ a.analyze.bounds.entries)
include h

theorem bound_eq : b = a.fullPeak name := by
  rw [analyze_bounds] at h
  obtain ⟨n, -, he⟩ := List.mem_map.1 h
  obtain ⟨rfl, rfl⟩ := Prod.mk.inj he
  rfl

theorem bound_nonneg : 0 ≤ b := by
  rw [bound_eq h]
  exact peak_nonneg _

/-- No bound is below a value of defaults or menu. -/
theorem offered_le {x : Single} (hx : a.Offered name x) : x.truncate ≤ b := by
  have hle := (a.isGreatest_shownPeak name).2 (Or.inr ⟨x, hx, rfl⟩)
  rw [bound_eq h]
  exact hle.trans (a.shownPeak_le_fullPeak name)

/-- No bound is below a value that a machine gives the name or compares it with. -/
theorem handled_le {x : Single} (hx : a.Handled name x) : x.truncate ≤ b := by
  rw [bound_eq h]
  exact (a.isGreatest_fullPeak name).2 (Or.inr ⟨x, hx, rfl⟩)

/-- No bound is below a value that the avatar names. -/
theorem literal_le {x : Single} (hx : a.Literal name x) : x.truncate ≤ b := by
  cases hx with
  | default hp hf => exact offered_le h (.default hp hf)
  | control hm hr hk hn => exact offered_le h (.control hm hr hk hn)
  | action hc hl ha hm hb hd hn hx =>
    exact handled_le h (.action ⟨_, hc, _, hl, ha, hm⟩ hb hd (DriverAction.gives_iff.2 ⟨hn, hx⟩))

end

/-- **Exactness.** For every avatar, let `shown n` be the greatest of zero and the whole parts of
what is offered for a name, and `reached n` that of `shown n` and the whole parts of what machines
handle. Then the bounds are `reached`, for the candidates where it fits, in the order of first
declaration; and dropped are first the candidates whose `shown` does not fit, with that, and then
those of the others whose `reached` does not, each in the same order. -/
theorem analyze_exact (a : Avatar) :
    ∃ shown reached : String → Int,
      (∀ n, IsGreatest (insert 0 (Binary.truncate '' {x | a.Offered n x})) (shown n))
      ∧ (∀ n, IsGreatest (insert (shown n) (Binary.truncate '' {x | a.Handled n x})) (reached n))
      ∧ a.analyze.bounds.entries
        = (a.candidateNames.map fun n => (n, reached n)).filter (·.2 ≤ 127)
      ∧ a.analyze.pruned
        = (a.candidateNames.map fun n => (n, shown n)).filter (127 < ·.2)
          ++ ((a.candidateNames.filter (shown · ≤ 127)).map fun n => (n, reached n)).filter
            (127 < ·.2) := by
  refine ⟨a.shownPeak, a.fullPeak, a.isGreatest_shownPeak, a.isGreatest_fullPeak, ?_, ?_⟩
  · -- what fits in the end also fitted before the machines
    have hfits : ∀ n ∈ a.candidateNames,
        (decide (a.fullPeak n ≤ maxBound) && decide (a.shownPeak n ≤ maxBound))
          = decide (a.fullPeak n ≤ 127) := by
      intro n _
      have hle := a.shownPeak_le_fullPeak n
      by_cases hn : a.fullPeak n ≤ maxBound
      · have hs : a.shownPeak n ≤ maxBound := by omega
        rw [decide_eq_true hn, decide_eq_true hs]
        exact (decide_eq_true hn).symm
      · rw [decide_eq_false hn]
        exact (decide_eq_false hn).symm
    rw [analyze_bounds, List.filter_filter, List.filter_congr hfits, List.filter_map]
    rfl
  · rw [analyze_pruned, List.filter_map, List.filter_map]
    rfl

/-- Dropped first is what does not fit before the machines are looked at. -/
example :
    let a : Avatar := {
      parameters := some [⟨"Mood", .int, true, 3, false⟩, ⟨"Hat", .int, true, 200, false⟩,
        ⟨"Pose", .int, true, 2, false⟩]
      layers := [⟨.fx, some { layers := [{ name := "Moods", machine := { entryTransitions :=
        [{ conditions := [⟨.greater, "Mood", 130⟩, ⟨.less, "Pose", 5⟩] }] } }] }⟩] }
    a.analyze.bounds.entries = [("Pose", 5)]
      ∧ a.analyze.pruned = [("Hat", 200), ("Mood", 130)] := by decide +kernel

end Avatar

end AvatarBits
