import AvatarBits.Analysis.Range
import AvatarBits.Proofs.Analysis.Pages

/-!
# Values that an avatar names

A parameter gets values by name: its default, the values of menu controls, and
what drivers write. A value is one of these wherever it stands, on any page that
can be opened and in any machine of a layer that has its own, however deep.

* `Avatar.Literal`: the values that an avatar names for a parameter.

Results:
* `Avatar.mem_machines`: the analysis looks at machines of any depth.
-/
namespace AvatarBits

/-! ## Values that are named -/

/-- A machine is another one or nested in it, at any depth. -/
inductive StateMachine.Contains : StateMachine → StateMachine → Prop
  | self (m : StateMachine) : Contains m m
  | nested {m k : StateMachine} {n : Nested StateMachine} :
    n ∈ m.children → Contains n.machine k → Contains m k

/-- A behaviour of a machine or of one of its states. -/
def StateMachine.Behaves (m : StateMachine) (b : Behaviour) : Prop :=
  b ∈ m.behaviours ∨ ∃ s ∈ m.states, b ∈ s.behaviours

/-- The values that an avatar names for a parameter: the default of its first candidate, what a
control on a page that can be opened sets it to, and what an action of a driver can make it by
itself. -/
inductive Avatar.Literal (a : Avatar) (name : String) : Single → Prop
  | default {parameters : List Parameter} {p : Parameter} :
    a.parameters = some parameters →
    (parameters.filter Parameter.isCandidate).find? (·.name == name) = some p →
    Literal a name p.default
  | control {m : Menu} {i : Nat} {page : MenuPage} {k : Control} :
    a.menu = some m → m.Reaches i page → k ∈ page.controls → k.parameter = some name →
    Literal a name k.value
  | action {c : Controller} {l : ControllerLayer} {m : StateMachine} {b : Behaviour}
    {d : DriverAction} {x : Single} :
    c ∈ a.controllers → l ∈ c.layers → l.isAlias = false → l.machine.Contains m → m.Behaves b →
    d ∈ b.actions → d.target = name → x ∈ d.literals → Literal a name x

/-! ## Machines -/

namespace StateMachine

theorem self_mem_all (m : StateMachine) : m ∈ m.all := by
  cases m
  exact List.mem_cons_self

theorem mem_allOf {k : StateMachine} {n : Nested StateMachine} {ns : List (Nested StateMachine)}
    (hn : n ∈ ns) (hk : k ∈ n.machine.all) : k ∈ allOf ns := by
  induction ns with
  | nil => cases hn
  | cons x ns ih =>
    rw [allOf]
    rcases List.mem_cons.1 hn with rfl | hn
    · exact List.mem_append_left _ hk
    · exact List.mem_append_right _ (ih hn)

/-- All machines in a machine are listed. -/
theorem Contains.mem_all {m k : StateMachine} (h : m.Contains k) : k ∈ m.all := by
  induction h with
  | self m => exact m.self_mem_all
  | @nested m k n hn _ ih =>
    have hm := mem_allOf hn ih
    cases m
    exact List.mem_cons_of_mem _ hm

theorem Behaves.mem_ownActions {m : StateMachine} {b : Behaviour} (h : m.Behaves b)
    {d : DriverAction} (hd : d ∈ b.actions) : d ∈ m.ownActions := by
  refine List.mem_flatMap.2 ⟨b, List.mem_append.2 (h.imp_right ?_), hd⟩
  intro hs
  exact List.mem_flatMap.2 hs

end StateMachine

theorem Avatar.mem_machines {a : Avatar} {c : Controller} {l : ControllerLayer} {m : StateMachine}
    (hc : c ∈ a.controllers) (hl : l ∈ c.layers) (ha : l.isAlias = false)
    (hm : l.machine.Contains m) : m ∈ a.machines := by
  refine List.mem_flatMap.2 ⟨l, List.mem_flatMap.2 ⟨c, hc, hl⟩, ?_⟩
  rw [ha]
  exact hm.mem_all

end AvatarBits
