import AvatarBits.Analysis.Bounds
import AvatarBits.Analysis.Menu
import AvatarBits.Analysis.Usage
import AvatarBits.Avatar.Basic
import AvatarBits.Codec.Bits

/-!
# Ranges of candidates

A candidate's bound starts at its declared default, is raised by every menu
control on a page that can be opened, and then by every literal that a driver
writes to it or a condition compares it with, in all machines of all layers that
have a machine of their own. Candidates above the packable range are dropped
after the menu and again at the end.

`Add` actions are not bounded by anything local and raise nothing.

* `DriverAction.literals`, `Condition.literals`: the values that an action or a condition names.
* `Avatar.analyze`: bounds, dropped candidates, and what was looked at.
-/
namespace AvatarBits

/-! ## Machines -/

namespace StateMachine

mutual

/-- A machine and all machines in it. -/
def all : StateMachine → List StateMachine
  | ⟨name, defaultState, states, entry, anyState, children, behaviours⟩ =>
    ⟨name, defaultState, states, entry, anyState, children, behaviours⟩ :: allOf children

/-- All machines of a list of nested ones. -/
def allOf : List (Nested StateMachine) → List StateMachine
  | [] => []
  | ⟨m, _⟩ :: rest => all m ++ allOf rest

end

/-- Writes of a machine's own behaviours and those of its states. -/
def ownActions (m : StateMachine) : List DriverAction :=
  (m.behaviours ++ m.states.flatMap State.behaviours).flatMap Behaviour.actions

/-- Transitions of a machine: from its entry, from any state, from its states, and from the
machines nested in it. -/
def ownTransitions (m : StateMachine) : List Transition :=
  m.entryTransitions ++ m.anyStateTransitions ++ m.states.flatMap State.transitions
    ++ m.children.flatMap Nested.transitions

/-- Conditions of a machine's transitions. -/
def ownConditions (m : StateMachine) : List Condition :=
  m.ownTransitions.flatMap Transition.conditions

end StateMachine

/-- Every machine of every layer that has its own. -/
def Avatar.machines (a : Avatar) : List StateMachine :=
  (a.controllers.flatMap Controller.layers).flatMap fun l =>
    if l.isAlias then [] else l.machine.all

/-! ## Literals -/

/-- Values that an action can give its target by itself. -/
def DriverAction.literals : DriverAction → List Single
  | .set _ value => [value]
  | .add .. => []
  | .random _ low high _ => [high, low]
  | .copy _ _ convert range => if convert then [range.destMin, range.destMax] else []

/-- Values that a condition compares its parameter with. -/
def Condition.literals (c : Condition) : List Single :=
  match c.mode with
  | .isSet | .notSet => []
  | .greater | .less | .equals | .notEqual => [c.threshold]

/-! ## Analysis -/

/-- What an analysis finds. -/
structure Analysis where
  bounds : BoundTable := {}
  usage : DefaultsUsage := {}
  pruned : List (String × Int) := []
  tally : Tally := {}

namespace Analysis

/-- The candidates of a parameter list at their defaults. -/
def seeds (parameters : List Parameter) : BoundTable :=
  (parameters.filter Parameter.isCandidate).foldl (fun t p => t.seed p.name p.default) {}

/-- Look at a menu control. -/
def control (t : BoundTable) (c : Control) : BoundTable :=
  match c.parameter with
  | none => t
  | some name => t.raise name c.value

/-- Look at the menu: every control of every page that can be opened. -/
def menu (a : Analysis) (m : Menu) : Analysis :=
  m.opened.foldl (fun a page =>
    { a with
      bounds := page.controls.foldl control a.bounds
      tally := a.tally + .page page.controls.length }) a

/-- Drop the candidates above the packable range. -/
def prune (a : Analysis) : Analysis :=
  let dropped := a.bounds.above maxBound
  { a with
    bounds := a.bounds.prune maxBound
    pruned := a.pruned ++ dropped
    tally := a.tally + { pruned := dropped.length } }

/-- Raise the bound of a name by some values. -/
def raiseAll (t : BoundTable) (name : String) (values : List Single) : BoundTable :=
  values.foldl (fun t x => t.raise name x) t

/-- Look at a driver action; only those on tracked parameters count. -/
def action (a : Analysis) (d : DriverAction) : Analysis :=
  if a.bounds.contains d.target then
    { a with
      bounds := raiseAll a.bounds d.target d.literals
      tally := a.tally + { actions := 1 } }
  else a

/-- Look at a condition; only those on tracked parameters count. -/
def condition (a : Analysis) (c : Condition) : Analysis :=
  if a.bounds.contains c.parameter then
    { a with
      bounds := raiseAll a.bounds c.parameter c.literals
      tally := a.tally + { conditions := 1 } }
  else a

/-- Look at a state. -/
def state (a : Analysis) (s : State) : Analysis :=
  { a with usage := a.usage.observe s.writeDefaults, tally := a.tally + { states := 1 } }

/-- Look at a machine, the machines in it apart. -/
def machine (a : Analysis) (m : StateMachine) : Analysis :=
  let a := m.states.foldl state a
  let a := m.ownActions.foldl action a
  m.ownConditions.foldl condition a

end Analysis

/-- Find the bounds of an avatar's candidates. Without any left after the menu, the controllers are
not looked at. -/
def Avatar.analyze (a : Avatar) : Analysis :=
  match a.parameters with
  | none => {}
  | some parameters =>
    let seeded : Analysis := { bounds := Analysis.seeds parameters }
    let opened := (match a.menu with
      | none => seeded
      | some m => seeded.menu m).prune
    if opened.bounds.entries.isEmpty then opened
    else (a.machines.foldl Analysis.machine opened).prune

end AvatarBits
