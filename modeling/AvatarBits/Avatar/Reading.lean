import AvatarBits.Avatar.Names
import AvatarBits.Json.Reader

/-!
# Reading an avatar description

One record description for each part of an avatar, with the value that an
absent field has. A driver action has its kind in a tag, and so has a
behaviour; behaviours of unknown kind are read as `other`.

* `Avatar.parse`: the avatar of a description, or the first complaint.
-/
namespace AvatarBits

open Json

/-- An expression parameter. -/
def Parameter.record : Record Parameter where
  title := "struct Parameter"
  blank := { name := "", type := .int }
  fields :=
    [.required "name" .string fun x p => { p with name := x },
      .required "value_type" (.choice ValueType.words) fun x p => { p with type := x },
      .optional "network_synced" .bool fun x p => { p with synced := x },
      .optional "default_value" .single fun x p => { p with default := x },
      .optional "saved" .bool fun x p => { p with saved := x }]

/-! ## Menus -/

/-- A menu entry. -/
def Control.record : Record Control where
  title := "struct Control"
  blank := {}
  fields :=
    [.optional "name" .string fun x c => { c with name := x },
      .optional "type" (.choice ControlType.words) fun x c => { c with type := x },
      .optional "parameter" (.option .string) fun x c => { c with parameter := x },
      .optional "value" .single fun x c => { c with value := x },
      .optional "sub_menu" (.option .index) fun x c => { c with subMenu := x }]

/-- A page. -/
def MenuPage.record : Record MenuPage where
  title := "struct MenuPage"
  blank := {}
  fields :=
    [.optional "name" .string fun x p => { p with name := x },
      .optional "controls" (.list Control.record.read) fun x p => { p with controls := x }]

/-- A menu. -/
def Menu.record : Record Menu where
  title := "struct Menu"
  blank := {}
  fields :=
    [.optional "root" .index fun x m => { m with root := x },
      .optional "pages" (.list MenuPage.record.read) fun x m => { m with pages := x }]

/-! ## Conditions and drivers -/

/-- A condition. -/
def Condition.record : Record Condition where
  title := "struct Condition"
  blank := { mode := .isSet, parameter := "" }
  fields :=
    [.required "mode" (.choice ConditionMode.words) fun x c => { c with mode := x },
      .required "parameter" .string fun x c => { c with parameter := x },
      .optional "threshold" .single fun x c => { c with threshold := x }]

namespace DriverAction

/-- Set the parameter that an action writes. -/
def setTarget (x : String) : DriverAction → DriverAction
  | .set _ v => .set x v
  | .add _ v => .add x v
  | .random _ l h c => .random x l h c
  | .copy _ s b r => .copy x s b r

/-- Set the value of an action that has one. -/
def setValue (x : Single) : DriverAction → DriverAction
  | .set n _ => .set n x
  | .add n _ => .add n x
  | a => a

/-- Change the range of an action that converts one. -/
def onRange (change : RangeConversion → RangeConversion) : DriverAction → DriverAction
  | .copy n s b r => .copy n s b (change r)
  | a => a

/-- The fields of an action, by its kind. -/
def fields : DriverAction → List (RecordField DriverAction)
  | .set .. | .add .. =>
    [.required "name" .string setTarget, .required "value" .single setValue]
  | .random .. =>
    [.required "name" .string setTarget,
      .optional "value_min" .single fun x a =>
        match a with | .random n _ h c => .random n x h c | a => a,
      .optional "value_max" .single fun x a =>
        match a with | .random n l _ c => .random n l x c | a => a,
      .optional "chance" .single fun x a =>
        match a with | .random n l h _ => .random n l h x | a => a]
  | .copy .. =>
    [.required "name" .string setTarget,
      .required "source" .string fun x a =>
        match a with | .copy n _ b r => .copy n x b r | a => a,
      .optional "convert_range" .bool fun x a =>
        match a with | .copy n s _ r => .copy n s x r | a => a,
      .optional "source_min" .single fun x => onRange fun r => { r with sourceMin := x },
      .optional "source_max" .single fun x => onRange fun r => { r with sourceMax := x },
      .optional "dest_min" .single fun x => onRange fun r => { r with destMin := x },
      .optional "dest_max" .single fun x => onRange fun r => { r with destMax := x }]

/-- An action of the kind of a blank one. -/
def record (blank : DriverAction) : Record DriverAction where
  title := s!"struct variant DriverAction::{blank.kind}"
  blank := blank
  fields := blank.fields

/-- A driver action, its tag read in one of two ways. -/
def reader (tag : Node → Except Cause DriverAction) : Reader DriverAction := fun depth node => do
  let (blank, content) ← Content.split "internally tagged enum DriverAction" "type" tag depth node
  blank.record.ofContent (depth - 1) content

/-- A driver action of a text. -/
def read : Reader DriverAction := reader (Reader.tag (Reader.variant words))

/-- A driver action inside a behaviour, which has been read before; its kind may be given by
position. -/
def readInside : Reader DriverAction := reader (Reader.tagOrPosition words)

end DriverAction

/-- A list of driver actions. -/
def ParameterDriver.record : Record ParameterDriver where
  title := "struct ParameterDriver"
  blank := {}
  fields :=
    [.optional "local_only" .bool fun x d => { d with localOnly := x },
      .optional "parameters" (.list DriverAction.readInside) fun x d => { d with actions := x }]

/-- A behaviour. -/
def Behaviour.read : Reader Behaviour := fun depth node => do
  let isDriver (kind : String) : Except Cause Bool := return kind = driverWord
  let (drives, content) ←
    Content.split "internally tagged enum Behaviour" "kind" (Reader.tag isDriver) depth node
  if drives then .driver <$> ParameterDriver.record.ofContent (depth - 1) content
  else (fun _ => .other) <$> content.unit

/-! ## States and machines -/

/-- A transition. -/
def Transition.record : Record Transition where
  title := "struct Transition"
  blank := {}
  fields :=
    [.optional "destination" (.option .string) fun x t => { t with destination := x },
      .optional "conditions" (.list Condition.record.read) fun x t => { t with conditions := x },
      .optional "has_exit_time" .bool fun x t => { t with hasExitTime := x },
      .optional "exit_time" .single fun x t => { t with exitTime := x },
      .optional "duration" .single fun x t => { t with duration := x }]

/-- Transitions of a text. -/
def Transition.readList : Reader (List Transition) := .list Transition.record.read

/-- A state. -/
def State.record : Record State where
  title := "struct State"
  blank := { name := "" }
  fields :=
    [.required "name" .string fun x s => { s with name := x },
      .optional "write_default_values" .bool fun x s => { s with writeDefaults := x },
      .optional "transitions" Transition.readList fun x s => { s with transitions := x },
      .optional "behaviours" (.list Behaviour.read) fun x s => { s with behaviours := x }]

/-- A nested machine. -/
def nestedRecord (machine : Reader StateMachine) : Record (Nested StateMachine) where
  title := "struct ChildStateMachine"
  blank := { machine := {} }
  fields :=
    [.required "state_machine" machine fun x c => { c with machine := x },
      .optional "transitions" Transition.readList fun x c => { c with transitions := x }]

namespace StateMachine

/-- A machine whose nested machines are read by `machine`. -/
def record (machine : Reader StateMachine) : Record StateMachine where
  title := "struct StateMachine"
  blank := {}
  fields :=
    [.optional "name" .string fun x m => { m with name := x },
      .optional "default_state" (.option .string) fun x m => { m with defaultState := x },
      .optional "states" (.list State.record.read) fun x m => { m with states := x },
      .optional "entry_transitions" Transition.readList fun x m => { m with entryTransitions := x },
      .optional "any_state_transitions" Transition.readList fun x m =>
        { m with anyStateTransitions := x },
      .optional "state_machines" (.list (nestedRecord machine).read) fun x m =>
        { m with children := x },
      .optional "behaviours" (.list Behaviour.read) fun x m => { m with behaviours := x }]

/-- A machine with at most `levels` levels of machines in it. -/
def readLevels : (levels : Nat) → Reader StateMachine
  | 0 => fun _ _ => throw (.fault .malformed)
  | levels + 1 => (record (readLevels levels)).read

/-- A machine of any nesting that a text may have: each level of machines nests deeper in it. -/
def read : Reader StateMachine := readLevels (maxDepth + 1)

end StateMachine

/-- A nested machine of a text. -/
def readNested : Reader (Nested StateMachine) := (nestedRecord StateMachine.read).read

/-! ## Controllers -/

/-- A controller parameter. -/
def ControllerParameter.record : Record ControllerParameter where
  title := "struct ControllerParameter"
  blank := { name := "", type := .float }
  fields :=
    [.required "name" .string fun x p => { p with name := x },
      .required "type" (.choice SlotType.words) fun x p => { p with type := x },
      .optional "default_value" .single fun x p => { p with default := x }]

/-- A layer. -/
def ControllerLayer.record : Record ControllerLayer where
  title := "struct ControllerLayer"
  blank := { name := "" }
  fields :=
    [.required "name" .string fun x l => { l with name := x },
      .optional "synced_layer_index" .word fun x l => { l with syncedLayer := x },
      .optional "default_weight" .single fun x l => { l with defaultWeight := x },
      .optional "state_machine" StateMachine.read fun x l => { l with machine := x }]

/-- A controller. -/
def Controller.record : Record Controller where
  title := "struct AnimatorController"
  blank := {}
  fields :=
    [.optional "name" .string fun x c => { c with name := x },
      .optional "parameters" (.list ControllerParameter.record.read) fun x c =>
        { c with parameters := x },
      .optional "layers" (.list ControllerLayer.record.read) fun x c => { c with layers := x }]

/-! ## Avatars -/

/-- A playable layer. -/
def PlayableLayer.record : Record PlayableLayer where
  title := "struct PlayableLayer"
  blank := { kind := .base }
  fields :=
    [.required "kind" (.choice LayerKind.words) fun x l => { l with kind := x },
      .optional "controller" (.option Controller.record.read) fun x l => { l with controller := x }]

/-- An avatar. -/
def Avatar.record : Record Avatar where
  title := "struct Avatar"
  blank := {}
  fields :=
    [.optional "expression_parameters" (.option (.list Parameter.record.read)) fun x a =>
        { a with parameters := x },
      .optional "menu" (.option Menu.record.read) fun x a => { a with menu := x },
      .optional "playable_layers" (.list PlayableLayer.record.read) fun x a =>
        { a with layers := x }]

/-- The avatar of a description. -/
def Avatar.parse (text : String) : Except Cause Avatar := Reader.run Avatar.record.read text

/-- The complaint about a description of another shape. -/
def Avatar.complaint? (cause : Cause) : Option String :=
  cause.message?.map ("Malformed avatar description: " ++ ·)

end AvatarBits
