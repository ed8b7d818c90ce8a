import AvatarBits.Proofs.Analysis.Exact

/-!
# States that the analysis walks

The analysis sees every state of every machine that it looks at, and counts it,
and once more if it writes defaults. Machines are nested in one another, but each
is looked at by itself, so the two counts are those of one list. They agree
exactly if all states of the list write defaults.

* `Avatar.HasState`: a state of a machine at any depth of a layer of its own.

Results:
* `Avatar.analyze_usage`: the two counts that an analysis ends with.
* `Avatar.usage_all_iff`: when all states are said to write defaults.
-/
namespace AvatarBits

/-- A state of a machine at any depth of a layer that shares no other layer's machine. -/
def Avatar.HasState (a : Avatar) (s : State) : Prop := ∃ m, a.Runs m ∧ s ∈ m.states

/-! ## Counting states -/

theorem DefaultsUsage.foldl_observe (ss : List State) (u : DefaultsUsage) :
    ss.foldl (fun u s => u.observe s.writeDefaults) u
      = ⟨u.states + ss.length, u.writing + ss.countP State.writeDefaults⟩ := by
  induction ss generalizing u with
  | nil => rfl
  | cons s ss ih =>
    have hwriting : (u.observe s.writeDefaults).writing + ss.countP State.writeDefaults
        = u.writing + (s :: ss).countP State.writeDefaults := by
      simp only [observe, List.countP_cons]
      cases s.writeDefaults
      · simp
      · simp only [Bool.toNat_true, if_true]
        omega
    have hstates : (u.observe s.writeDefaults).states + ss.length
        = u.states + (s :: ss).length := by
      simp only [observe, List.length_cons]
      omega
    rw [List.foldl_cons, ih, hwriting, hstates]

/-- Counts of a list of states say that all write defaults exactly if there are states and all of
them do. -/
theorem DefaultsUsage.all_counted_iff (ss : List State) :
    (⟨ss.length, ss.countP State.writeDefaults⟩ : DefaultsUsage).all = true
      ↔ (∃ s, s ∈ ss) ∧ ∀ s ∈ ss, s.writeDefaults = true := by
  unfold all
  rw [Bool.and_eq_true, decide_eq_true_eq, beq_iff_eq, List.countP_eq_length,
    List.length_pos_iff_exists_mem]

namespace Analysis

theorem usage_machine (a : Analysis) (m : StateMachine) :
    (a.machine m).usage = m.states.foldl (fun u s => u.observe s.writeDefaults) a.usage := by
  have haction : ∀ (a : Analysis) d, (a.action d).usage = a.usage := by
    intro a d
    unfold action
    split <;> rfl
  have hcondition : ∀ (a : Analysis) k, (a.condition k).usage = a.usage := by
    intro a k
    unfold condition
    split <;> rfl
  unfold machine
  rw [foldl_keeps Analysis.usage hcondition, foldl_keeps Analysis.usage haction]
  generalize m.states = ss
  induction ss generalizing a with
  | nil => rfl
  | cons s ss ih => exact ih (a.state s)

theorem usage_machines (ms : List StateMachine) (a : Analysis) :
    (ms.foldl machine a).usage
      = (ms.flatMap StateMachine.states).foldl (fun u s => u.observe s.writeDefaults) a.usage := by
  induction ms generalizing a with
  | nil => rfl
  | cons m ms ih => rw [List.foldl_cons, ih, usage_machine, List.flatMap_cons, List.foldl_append]

theorem usage_menu (a : Analysis) (m : Menu) : (a.menu m).usage = a.usage := by
  unfold menu
  rw [foldl_keeps Analysis.usage]
  exact fun _ _ => rfl

/-- No state is seen before the machines. -/
theorem usage_afterMenu (menu : Option Menu) (parameters : List Parameter) :
    (afterMenu menu parameters).usage = {} := by
  cases menu with
  | none => rfl
  | some m =>
    exact usage_menu { bounds := seeds parameters } m

end Analysis

/-! ## The states of an avatar -/

namespace Avatar

/-- The states of the machines that an analysis looks at. -/
def walked (a : Avatar) : List State := a.machines.flatMap StateMachine.states

theorem mem_walked_iff {a : Avatar} {s : State} : s ∈ a.walked ↔ a.HasState s := by
  unfold walked HasState
  simp only [List.mem_flatMap, mem_machines_iff]

/-- An analysis that leaves a bound has seen each state once for every place that it has. -/
theorem analyze_usage {a : Avatar} (h : a.analyze.bounds.entries ≠ []) :
    a.analyze.usage = ⟨a.walked.length, a.walked.countP State.writeDefaults⟩ := by
  cases hp : a.parameters with
  | none => exact absurd (congrArg (·.bounds.entries) (analyze_of_none hp)) h
  | some parameters =>
    rw [analyze_eq hp] at h ⊢
    split at h
    · rename_i hnone
      exact absurd (List.isEmpty_iff.1 hnone) h
    · rename_i hsome
      rw [if_neg hsome]
      have hwalk := Analysis.usage_machines a.machines (Analysis.afterMenu a.menu parameters)
      rw [DefaultsUsage.foldl_observe, Analysis.usage_afterMenu, Nat.zero_add, Nat.zero_add]
        at hwalk
      exact hwalk

/-- An analysis that leaves a bound says that all states write defaults exactly if the avatar has
states and all of them do. -/
theorem usage_all_iff {a : Avatar} (h : a.analyze.bounds.entries ≠ []) :
    a.analyze.usage.all = true
      ↔ (∃ s, a.HasState s) ∧ ∀ s, a.HasState s → s.writeDefaults = true := by
  rw [analyze_usage h, DefaultsUsage.all_counted_iff]
  simp only [mem_walked_iff]

end Avatar

end AvatarBits
