import AvatarBits.Analysis.Range
import AvatarBits.Codec.Declarations
import AvatarBits.Simulation.RoundTrip

/-!
# Compressing an avatar

An avatar is analysed, every candidate that fits gets a codec, and the result
says what to change: the new parameter list, the parameters to declare, and the
layers to add. An avatar with nothing to do, or without a place for layers, is
skipped for a reason. Nothing changes until the output is applied.

* `Avatar.compress`: the outcome, and what was looked at and generated.
* `Output.apply`: the avatar with an output written into it.
* `Output.verify`: every codec of an output tried on its whole range.
-/
namespace AvatarBits

/-- Why an avatar is left as it is. -/
inductive SkipReason where
  | noParameters
  | noCandidates
  | noFx
  deriving DecidableEq, Repr

namespace SkipReason

/-- Word for a reason. -/
def word : SkipReason → String
  | .noParameters => "NoExpressionParameters"
  | .noCandidates => "NoCandidates"
  | .noFx => "NoFxController"

/-- A reason in words. -/
def text : SkipReason → String
  | .noParameters => "avatar has no expression parameters"
  | .noCandidates => "no synced int parameter fits in 7 bits"
  | .noFx => "avatar has no FX controller"

end SkipReason

/-- A packed parameter: its bits, the size of its trees, and the positions of its layers in the
output. -/
structure Entry where
  name : String
  bound : Int
  width : Nat
  bits : List String
  encodeStates : Nat
  decodeStates : Nat
  depth : Nat
  encoder : Nat
  decoder : Nat
  deriving DecidableEq, Repr

/-- What a compression wants changed. -/
structure Output where
  parameters : List Parameter
  declarations : List ControllerParameter
  layers : List Layer
  report : List Entry
  pruned : List (String × Int)
  writeDefaults : Bool
  deriving DecidableEq

/-- The result of a compression. -/
inductive Outcome where
  | skipped (reason : SkipReason)
  | packed (output : Output)

/-! ## Packing -/

/-- A codec as reported, its layers standing from position `base` on. -/
def Codec.entry (c : Codec) (layout : LayerLayout) (wd : Bool) (base : Nat) : Entry where
  name := c.parameter
  bound := c.bound
  width := c.width
  bits := c.bits
  encodeStates := (c.tree .encode).nodes.length
  decodeStates := (c.tree .decode).nodes.length
  depth := (c.tree .encode).depth
  encoder := base + (c.assemble layout wd).encoder
  decoder := base + (c.assemble layout wd).decoder

/-- The report of codecs whose layers stand one after the other from position `base` on. -/
def report (layout : LayerLayout) (wd : Bool) : (base : Nat) → List Codec → List Entry
  | _, [] => []
  | base, c :: cs =>
    c.entry layout wd base :: report layout wd (base + (c.assemble layout wd).layers.length) cs

/-- What a codec adds to the tally. -/
def Codec.tally (c : Codec) (layout : LayerLayout) (wd : Bool) : Tally :=
  let layers := (c.assemble layout wd).layers
  .codec c.width (layers.flatMap Layer.states).length (layers.flatMap Layer.transitions).length

/-- The output of packing codecs into an avatar with some parameters and a controller. -/
def pack (parameters : List Parameter) (fx : Controller) (codecs : List Codec)
    (layout : LayerLayout) (wd : Bool) (pruned : List (String × Int)) : Output where
  parameters := replaceSynced parameters (codecs.map Codec.parameter)
    (codecs.flatMap fun c => bitParameters c.bits)
  declarations := declarations fx (codecs.map fun c => (c.parameter, c.bits))
  layers := codecs.flatMap fun c => (c.assemble layout wd).layers
  report := report layout wd 0 codecs
  pruned := pruned
  writeDefaults := wd

/-- Compress an avatar: the outcome, and what was looked at and generated. -/
def Avatar.compress (config : Config) (a : Avatar) : Except PackError Outcome × Tally :=
  match a.parameters with
  | none => (.ok (.skipped .noParameters), {})
  | some parameters =>
    let analysis := a.analyze
    if analysis.bounds.entries.isEmpty then (.ok (.skipped .noCandidates), analysis.tally)
    else
      match a.fx? with
      | none => (.ok (.skipped .noFx), analysis.tally)
      | some fx =>
        let wd := config.writeDefaults.resolve analysis.usage.all
        match analysis.bounds.entries.mapM fun (name, bound) => Codec.make name bound with
        | .error e => (.error e, analysis.tally)
        | .ok codecs =>
          (.ok (.packed (pack parameters fx codecs config.layout wd analysis.pruned)),
            codecs.foldl (fun t c => t + c.tally config.layout wd) analysis.tally)

/-! ## Outputs -/

namespace Output

/-- A controller with the declarations and layers of an output behind its own. -/
def extend (o : Output) (c : Controller) : Controller :=
  { c with
    parameters := c.parameters ++ o.declarations
    layers := c.layers ++ o.layers.filterMap Layer.toController? }

/-- Write an output into an avatar. -/
def apply (o : Output) (a : Avatar) : Except PackError Avatar :=
  match a.fx? with
  | none => .error .missingFx
  | some _ => .ok { a.onFx o.extend with parameters := some o.parameters }

/-- Try the codec of an entry on its whole range. -/
def verifyEntry (o : Output) (e : Entry) : Except PackError Unit :=
  match o.layers[e.encoder]?, o.layers[e.decoder]? with
  | some encoder, some decoder => AvatarBits.verify encoder decoder e.name e.bound e.bits
  | none, _ => .error (.unknownState e.name e.encoder)
  | _, none => .error (.unknownState e.name e.decoder)

/-- Try every codec on its whole range. -/
def verify (o : Output) : Except PackError Unit := o.report.forM o.verifyEntry

end Output

end AvatarBits
