import AvatarBits.Codec.Layer
import AvatarBits.Config

/-!
# Assembling a codec's layers

Every layer starts in a state that looks once at the built-in parameter
`IsLocal` and goes on to the root of the wearer's own instance or to the root of
everyone else's. The encode tree hangs off the first root and the decode tree
off the second, in one layer or in one layer each.

* `Codec.assemble`: the layers of a codec, and which of them encodes and which decodes.

Results:
* `forall_states_scaffold`, `forall_transitions_scaffold`: what a layer starts with.
* `Codec.assemble_encoder`, `Codec.assemble_decoder`: where the two layers stand.
-/
namespace AvatarBits

/-- The built-in parameter that is true on the wearer's own instance only. -/
def isLocalName : String := "IsLocal"

namespace Scaffold

/-- Position of the state in which a layer starts. -/
def entry : Nat := 0

/-- Position of the root on the wearer's own instance. -/
def localRoot : Nat := 1

/-- Position of the root on every other instance. -/
def remoteRoot : Nat := 2

end Scaffold

/-- A layer with its three first states and the choice between its two roots. -/
def scaffold (name : String) (writeDefaults : Bool) : Layer :=
  let l : Layer := { name, writeDefaults, defaultState := Scaffold.entry }
  ((((l.addState "entry").addState "local").addState "remote").addTransition
      Scaffold.entry Scaffold.localRoot [⟨.isSet, isLocalName, 0⟩]).addTransition
    Scaffold.entry Scaffold.remoteRoot [⟨.notSet, isLocalName, 0⟩]

/-- What all states of a scaffold have is what its three states have. -/
theorem forall_states_scaffold {name : String} {wd : Bool} {P : LayerState → Prop} :
    (∀ s ∈ (scaffold name wd).states, P s)
      ↔ P ⟨"entry", wd, [], false⟩ ∧ P ⟨"local", wd, [], false⟩ ∧ P ⟨"remote", wd, [], false⟩ := by
  simp [scaffold, Layer.addState, Layer.addTransition]

/-- What all transitions of a scaffold have is what the two do that leave its first state. -/
theorem forall_transitions_scaffold {name : String} {wd : Bool} {P : LayerTransition → Prop} :
    (∀ t ∈ (scaffold name wd).transitions, P t)
      ↔ P ⟨Scaffold.entry, Scaffold.localRoot, [⟨.isSet, isLocalName, 0⟩], 0, false⟩
        ∧ P ⟨Scaffold.entry, Scaffold.remoteRoot, [⟨.notSet, isLocalName, 0⟩], 0, false⟩ := by
  simp [scaffold, Layer.addState, Layer.addTransition]

/-- The layers of a codec and the positions of the two that run its trees. -/
structure Assembly where
  layers : List Layer
  encoder : Nat
  decoder : Nat
  deriving DecidableEq

namespace Codec

/-- The layer that runs both trees. -/
def fusedLayer (c : Codec) (writeDefaults : Bool) : Layer :=
  ((scaffold s!"{c.parameter}_codec" writeDefaults).splice (c.tree .encode)
    Scaffold.localRoot).splice (c.tree .decode) Scaffold.remoteRoot

/-- The layer that runs the encode tree alone. -/
def encodeLayer (c : Codec) (writeDefaults : Bool) : Layer :=
  (scaffold s!"{c.parameter}_encode" writeDefaults).splice (c.tree .encode) Scaffold.localRoot

/-- The layer that runs the decode tree alone. -/
def decodeLayer (c : Codec) (writeDefaults : Bool) : Layer :=
  (scaffold s!"{c.parameter}_decode" writeDefaults).splice (c.tree .decode) Scaffold.remoteRoot

/-- The layers of a codec. -/
def assemble (c : Codec) (layout : LayerLayout) (writeDefaults : Bool) : Assembly :=
  match layout with
  | .fused => ⟨[c.fusedLayer writeDefaults], 0, 0⟩
  | .split => ⟨[c.encodeLayer writeDefaults, c.decodeLayer writeDefaults], 0, 1⟩

/-- The layer that runs a codec's encode tree. -/
def encoder (c : Codec) : LayerLayout → Bool → Layer
  | .fused => c.fusedLayer
  | .split => c.encodeLayer

/-- The layer that runs a codec's decode tree. -/
def decoder (c : Codec) : LayerLayout → Bool → Layer
  | .fused => c.fusedLayer
  | .split => c.decodeLayer

theorem assemble_encoder (c : Codec) (layout : LayerLayout) (wd : Bool) :
    (c.assemble layout wd).layers[(c.assemble layout wd).encoder]?
      = some (c.encoder layout wd) := by
  cases layout <;> rfl

theorem assemble_decoder (c : Codec) (layout : LayerLayout) (wd : Bool) :
    (c.assemble layout wd).layers[(c.assemble layout wd).decoder]?
      = some (c.decoder layout wd) := by
  cases layout <;> rfl

end Codec

end AvatarBits
