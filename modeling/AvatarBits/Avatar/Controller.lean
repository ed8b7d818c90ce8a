import AvatarBits.Number.Binary

/-!
# Animator controllers

The part of a controller that matters to packing: its parameters, and layers of
nested state machines whose transitions test parameters and whose behaviours
write them.

Results:
* `StateMachine.same_iff`: machines of any nesting can be compared.
-/
namespace AvatarBits

/-! ## Conditions -/

/-- How a condition compares its parameter: set, not set, or against a threshold. -/
inductive ConditionMode where
  | isSet
  | notSet
  | greater
  | less
  | equals
  | notEqual
  deriving DecidableEq, Repr

/-- A test of one parameter. -/
structure Condition where
  mode : ConditionMode
  parameter : String
  threshold : Single := 0
  deriving DecidableEq

/-! ## Drivers -/

/-- A linear map of one range onto another. -/
structure RangeConversion where
  sourceMin : Single := 0
  sourceMax : Single := 0
  destMin : Single := 0
  destMax : Single := 0
  deriving DecidableEq

/-- A write that a driver makes when its state is entered. -/
inductive DriverAction where
  | set (name : String) (value : Single)
  | add (name : String) (value : Single)
  | random (name : String) (low high chance : Single)
  | copy (name source : String) (convert : Bool) (range : RangeConversion)
  deriving DecidableEq

namespace DriverAction

/-- Parameter that the action writes. -/
def target : DriverAction → String
  | .set name _ | .add name _ | .random name .. | .copy name .. => name

/-- Word for the kind of action. -/
def kind : DriverAction → String
  | .set .. => "Set"
  | .add .. => "Add"
  | .random .. => "Random"
  | .copy .. => "Copy"

end DriverAction

/-- A list of writes; a local-only driver acts on the wearer's own instance alone. -/
structure ParameterDriver where
  localOnly : Bool := false
  actions : List DriverAction := []
  deriving DecidableEq

/-- Behaviour of a state or machine. Only drivers matter here. -/
inductive Behaviour where
  | driver (d : ParameterDriver)
  | other
  deriving DecidableEq

/-- Writes of a behaviour. -/
def Behaviour.actions : Behaviour → List DriverAction
  | .driver d => d.actions
  | .other => []

/-! ## States and machines -/

/-- A transition; without a destination it leaves the machine. -/
structure Transition where
  destination : Option String := none
  conditions : List Condition := []
  hasExitTime : Bool := false
  exitTime : Single := 0
  duration : Single := 0
  deriving DecidableEq

/-- A state. -/
structure State where
  name : String
  writeDefaults : Bool := true
  transitions : List Transition := []
  behaviours : List Behaviour := []
  deriving DecidableEq

/-- A machine inside another, and the transitions that leave it there. -/
structure Nested (M : Type) where
  machine : M
  transitions : List Transition := []
  deriving DecidableEq

/-- A state machine. -/
structure StateMachine where
  name : String := ""
  defaultState : Option String := none
  states : List State := []
  entryTransitions : List Transition := []
  anyStateTransitions : List Transition := []
  children : List (Nested StateMachine) := []
  behaviours : List Behaviour := []
  deriving Inhabited

namespace StateMachine

mutual

/-- Whether two machines agree all the way down. -/
def same : StateMachine → StateMachine → Bool
  | ⟨n, d, s, e, a, c, b⟩, ⟨n', d', s', e', a', c', b'⟩ =>
    decide (n = n' ∧ d = d' ∧ s = s' ∧ e = e' ∧ a = a' ∧ b = b') && sameList c c'

/-- Whether two lists of nested machines agree. -/
def sameList : List (Nested StateMachine) → List (Nested StateMachine) → Bool
  | [], [] => true
  | ⟨m, t⟩ :: c, ⟨m', t'⟩ :: c' => decide (t = t') && same m m' && sameList c c'
  | _, _ => false

end

mutual

theorem same_iff : ∀ m m' : StateMachine, same m m' = true ↔ m = m'
  | ⟨n, d, s, e, a, c, b⟩, ⟨n', d', s', e', a', c', b'⟩ => by
    have := sameList_iff c c'
    simp only [same, Bool.and_eq_true, decide_eq_true_eq, this, StateMachine.mk.injEq]
    constructor
    · rintro ⟨⟨h1, h2, h3, h4, h5, h6⟩, h7⟩; exact ⟨h1, h2, h3, h4, h5, h7, h6⟩
    · rintro ⟨h1, h2, h3, h4, h5, h7, h6⟩; exact ⟨⟨h1, h2, h3, h4, h5, h6⟩, h7⟩

theorem sameList_iff : ∀ c c' : List (Nested StateMachine), sameList c c' = true ↔ c = c'
  | [], [] => by simp [sameList]
  | [], _ :: _ => by simp [sameList]
  | _ :: _, [] => by simp [sameList]
  | ⟨m, t⟩ :: c, ⟨m', t'⟩ :: c' => by
    simp only [sameList, Bool.and_eq_true, decide_eq_true_eq, same_iff m m', sameList_iff c c',
      List.cons.injEq, Nested.mk.injEq]
    constructor
    · rintro ⟨⟨h1, h2⟩, h3⟩; exact ⟨⟨h2, h1⟩, h3⟩
    · rintro ⟨⟨h2, h1⟩, h3⟩; exact ⟨⟨h1, h2⟩, h3⟩

end

instance : DecidableEq StateMachine := fun m m' => decidable_of_iff _ (same_iff m m')

end StateMachine

/-! ## Controllers -/

/-- Kind of a controller parameter. -/
inductive SlotType where
  | float
  | int
  | bool
  | trigger
  deriving DecidableEq, Repr

/-- A parameter that a controller declares. -/
structure ControllerParameter where
  name : String
  type : SlotType
  default : Single := 0
  deriving DecidableEq

/-- A layer of a controller. -/
structure ControllerLayer where
  name : String
  /-- Position of the layer whose machine this one shares, or a negative number. -/
  syncedLayer : Int := -1
  defaultWeight : Single := 0
  machine : StateMachine := {}
  deriving DecidableEq

/-- A layer that shares the machine of another has nothing of its own. -/
def ControllerLayer.isAlias (l : ControllerLayer) : Bool := 0 ≤ l.syncedLayer

/-- A controller. -/
structure Controller where
  name : String := ""
  parameters : List ControllerParameter := []
  layers : List ControllerLayer := []
  deriving DecidableEq

end AvatarBits
