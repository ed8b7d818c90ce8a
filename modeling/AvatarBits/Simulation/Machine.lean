import AvatarBits.Codec.Assembly
import AvatarBits.Simulation.Store

/-!
# Running a layer

A run takes the first transition of the current state whose conditions all hold
and enters its destination, until none holds or the limit is passed. Transitions
take no time, so one run is what happens between two changes from outside. The
first run enters the default state before anything else.

A failing run leaves the instance as it was at the failure.

* `Machine.next?`: where the instance goes next.
* `Machine.run`: how many transitions fired, or the failure.

Results:
* `Machine.next?_eq`: the next destination is that of the first enabled transition.
-/
namespace AvatarBits

/-- A layer ready to run: states by position and transitions by source. -/
structure Machine where
  layer : Layer
  states : Array LayerState
  outgoing : Array (List LayerTransition)

/-- Make a layer ready to run. -/
def Machine.ofLayer (l : Layer) : Machine := ⟨l, l.states.toArray, l.outgoing⟩

/-- A running copy of a layer. -/
structure Instance where
  current : Nat
  started : Bool := false
  store : Store := {}
  deriving DecidableEq

namespace Instance

/-- Give a name a value. -/
def set (i : Instance) (name : String) (v : ParamValue) : Instance :=
  { i with store := i.store.set name v }

/-- Value of a name. -/
def get? (i : Instance) (name : String) : Option ParamValue := i.store.get? name

end Instance

/-- Whether all conditions of a transition hold. -/
def LayerTransition.enabled (t : LayerTransition) (s : Store) : Bool :=
  t.conditions.all (·.holds s)

/-- Perform writes in order up to the first that cannot be performed. -/
def perform (state : String) : List DriverAction → Store → Store × Option PackError
  | [], s => (s, none)
  | a :: rest, s =>
    match a.apply? s with
    | some s => perform state rest s
    | none => (s, some (.unsupportedAction a.kind a.target state))

namespace Machine

/-- A copy that has not run yet. -/
def start (m : Machine) : Instance := { current := m.layer.defaultState }

/-- Name of the current state. -/
def stateName? (m : Machine) (i : Instance) : Option String :=
  (m.layer.state? i.current).map LayerState.name

/-- Transitions that a run may fire. -/
def limit (m : Machine) : Nat := 2 * m.states.size + 8

/-- Where the instance goes next. -/
def next? (m : Machine) (i : Instance) : Option Nat :=
  match m.outgoing[i.current]? with
  | none => none
  | some ts => (ts.find? (·.enabled i.store)).map LayerTransition.destination

/-- Enter a state and perform its writes, local ones on the wearer's own instance only. -/
def enter (m : Machine) (id : Nat) (i : Instance) : Instance × Option PackError :=
  match m.states[id]? with
  | none => (i, some (.unknownState m.layer.name id))
  | some state =>
    let i := { i with current := id }
    if state.localOnly && !i.store.isSet isLocalName then (i, none)
    else
      let (store, failure) := perform state.name state.actions i.store
      ({ i with store }, failure)

/-- Fire transitions until none applies; `fired` counts those before, `budget` those still
allowed. -/
def settle (m : Machine) : (budget fired : Nat) → Instance → Instance × Except PackError Nat
  | 0, _, i => (i, .error (.unsettled m.layer.name m.limit))
  | budget + 1, fired, i =>
    match m.next? i with
    | none => (i, .ok fired)
    | some id =>
      match m.enter id i with
      | (i, some e) => (i, .error e)
      | (i, none) => settle m budget (fired + 1) i

/-- Run an instance until it settles. -/
def run (m : Machine) (i : Instance) : Instance × Except PackError Nat :=
  if i.started then m.settle (m.limit + 1) 0 i
  else
    match m.enter m.layer.defaultState { i with started := true } with
    | (i, some e) => (i, .error e)
    | (i, none) => m.settle (m.limit + 1) 0 i

/-- The next destination is that of the first enabled transition that leaves the current state. -/
theorem next?_eq (l : Layer) (i : Instance) :
    (ofLayer l).next? i = if i.current < l.states.length then
      ((l.transitionsFrom i.current).find? (·.enabled i.store)).map LayerTransition.destination
    else none := by
  unfold next? ofLayer
  simp only [Layer.getElem?_outgoing]
  by_cases h : i.current < l.states.length <;> simp [h]

end Machine

end AvatarBits
