import AvatarBits.Avatar.Names
import AvatarBits.Json.Value
import AvatarBits.Number.Shortest

/-!
# Writing an avatar description

Every field is written in a fixed order, except that absent destinations,
default states, parameters and links, and empty lists of transitions,
behaviours and nested machines, are left out. A number that is not finite is
written as null.

* `Avatar.describe`: the text of an avatar, one line to an item.
-/
namespace AvatarBits

open Json

/-- A number, or null when it is not finite. -/
def Single.toValue (x : Single) : Value := Value.option .number x.numeral?

/-- A member that is left out when it is absent. -/
def memberOf {α : Type} (name : String) (value : α → Value) : Option α → List (String × Value)
  | none => []
  | some x => [(name, value x)]

/-- A member that is left out when it is empty. -/
def membersOf {α : Type} (name : String) (value : α → Value) : List α → List (String × Value)
  | [] => []
  | xs => [(name, .list value xs)]

/-- An expression parameter. -/
def Parameter.toValue (p : Parameter) : Value :=
  .object [("name", .string p.name), ("value_type", .string p.type.word),
    ("network_synced", .bool p.synced), ("default_value", p.default.toValue),
    ("saved", .bool p.saved)]

/-! ## Menus -/

/-- A menu entry. -/
def Control.toValue (c : Control) : Value :=
  .object <| [("name", .string c.name), ("type", .string c.type.word)]
    ++ memberOf "parameter" .string c.parameter ++ [("value", c.value.toValue)]
    ++ memberOf "sub_menu" (fun i : Nat => .int i) c.subMenu

/-- A page. -/
def MenuPage.toValue (p : MenuPage) : Value :=
  .object [("name", .string p.name), ("controls", .list Control.toValue p.controls)]

/-- A menu. -/
def Menu.toValue (m : Menu) : Value :=
  .object [("root", .int m.root), ("pages", .list MenuPage.toValue m.pages)]

/-! ## Controllers -/

/-- A condition. -/
def Condition.toValue (c : Condition) : Value :=
  .object [("mode", .string c.mode.word), ("parameter", .string c.parameter),
    ("threshold", c.threshold.toValue)]

/-- A driver action, its kind first. -/
def DriverAction.toValue (a : DriverAction) : Value :=
  .object <| ("type", .string a.kind) ::
    match a with
    | .set name value | .add name value => [("name", .string name), ("value", value.toValue)]
    | .random name low high chance =>
      [("name", .string name), ("value_min", low.toValue), ("value_max", high.toValue),
        ("chance", chance.toValue)]
    | .copy name source convert range =>
      [("name", .string name), ("source", .string source), ("convert_range", .bool convert),
        ("source_min", range.sourceMin.toValue), ("source_max", range.sourceMax.toValue),
        ("dest_min", range.destMin.toValue), ("dest_max", range.destMax.toValue)]

/-- A behaviour, its kind first. -/
def Behaviour.toValue : Behaviour → Value
  | .driver d =>
    .object [("kind", .string driverWord), ("local_only", .bool d.localOnly),
      ("parameters", .list DriverAction.toValue d.actions)]
  | .other => .object [("kind", .string otherWord)]

/-- A transition. -/
def Transition.toValue (t : Transition) : Value :=
  .object <| memberOf "destination" .string t.destination
    ++ [("conditions", .list Condition.toValue t.conditions),
      ("has_exit_time", .bool t.hasExitTime), ("exit_time", t.exitTime.toValue),
      ("duration", t.duration.toValue)]

/-- A state. -/
def State.toValue (s : State) : Value :=
  .object <| [("name", .string s.name), ("write_default_values", .bool s.writeDefaults)]
    ++ membersOf "transitions" Transition.toValue s.transitions
    ++ membersOf "behaviours" Behaviour.toValue s.behaviours

/-- A nested machine, its own value given. -/
def nestedValue (machine : Value) (transitions : List Transition) : Value :=
  .object <| ("state_machine", machine) :: membersOf "transitions" Transition.toValue transitions

namespace StateMachine

mutual

/-- A state machine with all the machines in it. -/
def toValue : StateMachine → Value
  | ⟨name, defaultState, states, entry, anyState, children, behaviours⟩ =>
    .object <| [("name", .string name)] ++ memberOf "default_state" .string defaultState
      ++ [("states", .list State.toValue states)]
      ++ membersOf "entry_transitions" Transition.toValue entry
      ++ membersOf "any_state_transitions" Transition.toValue anyState
      ++ membersOf "state_machines" id (childValues children)
      ++ membersOf "behaviours" Behaviour.toValue behaviours

/-- Machines in a machine. -/
def childValues : List (Nested StateMachine) → List Value
  | [] => []
  | ⟨m, transitions⟩ :: rest => nestedValue (toValue m) transitions :: childValues rest

end

end StateMachine

/-- A controller parameter. -/
def ControllerParameter.toValue (p : ControllerParameter) : Value :=
  .object [("name", .string p.name), ("type", .string p.type.word),
    ("default_value", p.default.toValue)]

/-- A layer. -/
def ControllerLayer.toValue (l : ControllerLayer) : Value :=
  .object [("name", .string l.name), ("synced_layer_index", .int l.syncedLayer),
    ("default_weight", l.defaultWeight.toValue), ("state_machine", l.machine.toValue)]

/-- A controller. -/
def Controller.toValue (c : Controller) : Value :=
  .object [("name", .string c.name), ("parameters", .list ControllerParameter.toValue c.parameters),
    ("layers", .list ControllerLayer.toValue c.layers)]

/-! ## Avatars -/

/-- A playable layer. -/
def PlayableLayer.toValue (l : PlayableLayer) : Value :=
  .object [("kind", .string l.kind.word), ("controller", .option Controller.toValue l.controller)]

/-- An avatar. -/
def Avatar.toValue (a : Avatar) : Value :=
  .object [("expression_parameters", .option (.list Parameter.toValue) a.parameters),
    ("menu", .option Menu.toValue a.menu),
    ("playable_layers", .list PlayableLayer.toValue a.layers)]

/-- The description of an avatar. -/
def Avatar.describe (a : Avatar) : String := a.toValue.text .indented

end AvatarBits
