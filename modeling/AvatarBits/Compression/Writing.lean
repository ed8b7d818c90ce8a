import AvatarBits.Avatar.Writing
import AvatarBits.Compression.Basic

/-!
# Writing layers and outputs

* `Layer.toValue`: a generated layer.
* `Output.toValue`: everything that a compression wants changed.
-/
namespace AvatarBits

open Json

/-- A generated state; writes are left out when there are none. -/
def LayerState.toValue (s : LayerState) : Value :=
  .object <| [("name", .string s.name), ("write_default_values", .bool s.writeDefaults)]
    ++ membersOf "actions" DriverAction.toValue s.actions ++ [("local_only", .bool s.localOnly)]

/-- A generated transition. -/
def LayerTransition.toValue (t : LayerTransition) : Value :=
  .object [("source", .int t.source), ("destination", .int t.destination),
    ("conditions", .list Condition.toValue t.conditions), ("duration", t.duration.toValue),
    ("has_exit_time", .bool t.hasExitTime)]

/-- A generated layer. -/
def Layer.toValue (l : Layer) : Value :=
  .object [("name", .string l.name), ("default_weight", l.defaultWeight.toValue),
    ("default_state", .int l.defaultState), ("states", .list LayerState.toValue l.states),
    ("transitions", .list LayerTransition.toValue l.transitions)]

/-- A packed parameter. -/
def Entry.toValue (e : Entry) : Value :=
  .object [("name", .string e.name), ("bound", .int e.bound), ("width", .int e.width),
    ("bit_parameters", .list .string e.bits), ("encode_states", .int e.encodeStates),
    ("decode_states", .int e.decodeStates), ("depth", .int e.depth),
    ("encoder_layer", .int e.encoder), ("decoder_layer", .int e.decoder)]

/-- A name with its bound. -/
def boundValue (e : String × Int) : Value := .array [.string e.1, .int e.2]

/-- An output, its layers written in one way or another. -/
def Output.toValueWith (layer : Layer → Value) (o : Output) : Value :=
  .object [("expression_parameters", .list Parameter.toValue o.parameters),
    ("controller_parameters", .list ControllerParameter.toValue o.declarations),
    ("layers", .list layer o.layers), ("report", .list Entry.toValue o.report),
    ("pruned", .list boundValue o.pruned), ("write_defaults", .bool o.writeDefaults)]

/-- An output with its layers in full. -/
def Output.toValue (o : Output) : Value := o.toValueWith Layer.toValue

end AvatarBits
