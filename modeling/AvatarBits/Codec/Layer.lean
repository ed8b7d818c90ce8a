import AvatarBits.Codec.Tree

/-!
# Generated layers

A generated layer is a list of states and a list of transitions between their
positions. Trees are spliced in below a root state, and a finished layer turns
into a layer of a controller, where transitions hang at their states and name
their destinations.

Results:
* `Layer.states_splice`, `Layer.transitions_splice`: splicing only appends.
* `Layer.length_outgoing`, `Layer.getElem?_outgoing`: transitions grouped by their source.
* `Layer.toController?_eq_some_iff`: a layer of a controller, position by position.
-/
namespace AvatarBits

/-- A generated state: what it writes when entered, and whether only the wearer's instance does. -/
structure LayerState where
  name : String
  writeDefaults : Bool
  actions : List DriverAction := []
  localOnly : Bool := false
  deriving DecidableEq

/-- A generated transition between positions of states. -/
structure LayerTransition where
  source : Nat
  destination : Nat
  conditions : List Condition
  duration : Single := 0
  hasExitTime : Bool := false
  deriving DecidableEq

/-- A generated layer. -/
structure Layer where
  name : String
  /-- What states added from now on have for their defaults. -/
  writeDefaults : Bool
  defaultWeight : Single := 0
  defaultState : Nat := 0
  states : List LayerState := []
  transitions : List LayerTransition := []
  deriving DecidableEq

namespace Layer

/-- A state at a position. -/
def state? (l : Layer) (id : Nat) : Option LayerState := l.states[id]?

/-- Position of the first state of a name. -/
def stateId? (l : Layer) (name : String) : Option Nat := l.states.findIdx? (·.name == name)

/-- The transitions that leave a state, in order. -/
def transitionsFrom (l : Layer) (source : Nat) : List LayerTransition :=
  l.transitions.filter (·.source == source)

/-! ## Building -/

/-- Add a state without writes; its position is the old number of states. -/
def addState (l : Layer) (name : String) : Layer :=
  { l with states := l.states ++ [⟨name, l.writeDefaults, [], false⟩] }

/-- Add an instant transition. -/
def addTransition (l : Layer) (source destination : Nat) (conditions : List Condition) : Layer :=
  { l with transitions := l.transitions ++ [⟨source, destination, conditions, 0, false⟩] }

/-- The state of a tree's node. Writes of an encode tree are local. -/
def stateOf (l : Layer) (role : Role) (n : TreeNode) : LayerState :=
  ⟨n.name, l.writeDefaults, n.actions, role = .encode⟩

/-- The position of an edge's end, for a tree whose first node is at `base`. -/
def resolve (base root : Nat) : Target → Nat
  | .node id => base + id
  | .root => root

/-- The transitions of edges that leave one state. -/
def transitionsOf (base root source : Nat) (edges : List Edge) : List LayerTransition :=
  edges.map fun e => ⟨source, resolve base root e.target, e.conditions, 0, false⟩

/-- Append a tree below a root state: the edges of its root first, then those of its nodes in
order. -/
def splice (l : Layer) (tree : SearchTree) (root : Nat) : Layer :=
  let base := l.states.length
  { l with
    states := l.states ++ tree.nodes.map (l.stateOf tree.role)
    transitions := l.transitions ++ transitionsOf base root root tree.rootEdges
      ++ tree.nodes.zipIdx.flatMap fun (n, id) => transitionsOf base root (base + id) n.edges }

theorem states_splice (l : Layer) (tree : SearchTree) (root : Nat) :
    (l.splice tree root).states = l.states ++ tree.nodes.map (l.stateOf tree.role) := rfl

theorem transitions_splice (l : Layer) (tree : SearchTree) (root : Nat) :
    (l.splice tree root).transitions = l.transitions
      ++ transitionsOf l.states.length root root tree.rootEdges
      ++ tree.nodes.zipIdx.flatMap fun (n, id) =>
        transitionsOf l.states.length root (l.states.length + id) n.edges := rfl

/-! ## Transitions by source -/

/-- The transitions that leave each state; those that leave from nowhere are dropped. -/
def outgoing (l : Layer) : Array (List LayerTransition) :=
  l.transitions.foldr (fun t byState => byState.modify t.source (t :: ·))
    (Array.replicate l.states.length [])

theorem size_foldr_modify (ts : List LayerTransition) (a : Array (List LayerTransition)) :
    (ts.foldr (fun t byState => byState.modify t.source (t :: ·)) a).size = a.size := by
  induction ts with
  | nil => rfl
  | cons t ts ih => simp [ih]

theorem length_outgoing (l : Layer) : l.outgoing.size = l.states.length := by
  simp [outgoing, size_foldr_modify]

theorem getElem?_foldr_modify (ts : List LayerTransition) (n i : Nat) :
    (ts.foldr (fun t byState => byState.modify t.source (t :: ·)) (Array.replicate n []))[i]?
      = if i < n then some (ts.filter (·.source == i)) else none := by
  induction ts with
  | nil => simp [Array.getElem?_replicate]
  | cons t ts ih =>
    rw [List.foldr_cons, Array.getElem?_modify, ih]
    by_cases h : t.source = i <;> by_cases hi : i < n <;> simp [h, hi]

/-- Grouping by source agrees with the transitions that leave a state. -/
theorem getElem?_outgoing (l : Layer) (i : Nat) :
    l.outgoing[i]? = if i < l.states.length then some (l.transitionsFrom i) else none :=
  getElem?_foldr_modify l.transitions l.states.length i

/-! ## Layers of a controller -/

/-- Both ends of every transition are states. -/
def Closed (l : Layer) : Prop :=
  ∀ t ∈ l.transitions, t.source < l.states.length ∧ t.destination < l.states.length

instance (l : Layer) : Decidable l.Closed := inferInstanceAs (Decidable (∀ _ ∈ _, _))

/-- A transition as it hangs at its state, which names its destination. -/
def transitionValue (l : Layer) (t : LayerTransition) : Transition where
  destination := (l.state? t.destination).map LayerState.name
  conditions := t.conditions
  hasExitTime := t.hasExitTime
  exitTime := 0
  duration := t.duration

/-- What a state does when entered, as a behaviour; a state that writes nothing has none. -/
def LayerState.behaviours (s : LayerState) : List Behaviour :=
  if s.actions.isEmpty then [] else [.driver ⟨s.localOnly, s.actions⟩]

/-- What a state does as behaviours is what it does. -/
theorem LayerState.actions_behaviours (s : LayerState) :
    (LayerState.behaviours s).flatMap Behaviour.actions = s.actions := by
  unfold LayerState.behaviours
  split
  · exact (List.isEmpty_iff.1 ‹_›).symm
  · exact List.append_nil _

/-- The layer of a controller, if every transition has both its ends. -/
def toController? (l : Layer) : Option ControllerLayer :=
  if l.Closed then
    some {
      name := l.name
      syncedLayer := -1
      defaultWeight := l.defaultWeight
      machine := {
        name := l.name
        defaultState := (l.state? l.defaultState).map LayerState.name
        states := (l.states.zip l.outgoing.toList).map fun (s, ts) => {
          name := s.name
          writeDefaults := s.writeDefaults
          transitions := ts.map l.transitionValue
          behaviours := LayerState.behaviours s } } }
  else none

/-- The state of a controller for the one at a position. -/
def stateValue (l : Layer) (i : Nat) (s : LayerState) : State where
  name := s.name
  writeDefaults := s.writeDefaults
  transitions := (l.transitionsFrom i).map l.transitionValue
  behaviours := LayerState.behaviours s

/-- The layer of a controller, position by position and whatever its transitions end at. -/
def toController (l : Layer) : ControllerLayer where
  name := l.name
  syncedLayer := -1
  defaultWeight := l.defaultWeight
  machine := {
    name := l.name
    defaultState := (l.state? l.defaultState).map LayerState.name
    states := l.states.mapIdx l.stateValue }

/-- Grouping the transitions by source gives each state the ones that leave it. -/
theorem states_toController (l : Layer) :
    ((l.states.zip l.outgoing.toList).map fun (s, ts) => ({
        name := s.name
        writeDefaults := s.writeDefaults
        transitions := ts.map l.transitionValue
        behaviours := LayerState.behaviours s } : State)) = l.states.mapIdx l.stateValue := by
  refine List.ext_getElem (by simp [length_outgoing]) fun i _ hi => ?_
  have hstate : i < l.states.length := List.length_mapIdx ▸ hi
  have hsize : i < l.outgoing.size := l.length_outgoing.symm ▸ hstate
  have hout : l.outgoing[i] = l.transitionsFrom i := by
    have h := l.getElem?_outgoing i
    rw [if_pos hstate, Array.getElem?_eq_getElem hsize] at h
    exact Option.some.inj h
  simp [stateValue, hout]

theorem toController?_eq_some_iff {l : Layer} {k : ControllerLayer} :
    l.toController? = some k ↔ l.Closed ∧ k = l.toController := by
  unfold toController?
  split
  · rw [states_toController]
    exact ⟨fun h => ⟨‹_›, (Option.some.inj h).symm⟩, fun h => congrArg some h.2.symm⟩
  · exact ⟨nofun, fun h => absurd h.1 ‹_›⟩

end Layer

end AvatarBits
