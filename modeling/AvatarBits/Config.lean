/-!
# Options of a compression

Whether generated states write defaults, and how the two halves of a codec are
spread over layers.
-/
namespace AvatarBits

/-- Whether generated states write defaults: as the avatar's own states do, never, or always. -/
inductive WriteDefaultsPolicy where
  | auto
  | off
  | on
  deriving DecidableEq, Repr

/-- The decision, given whether all states of the avatar write defaults. -/
def WriteDefaultsPolicy.resolve : WriteDefaultsPolicy → Bool → Bool
  | .auto, all => all
  | .off, _ => false
  | .on, _ => true

/-- One layer for both halves of a codec, or one for each. -/
inductive LayerLayout where
  | fused
  | split
  deriving DecidableEq, Repr

/-- Options of a compression. -/
structure Config where
  writeDefaults : WriteDefaultsPolicy := .auto
  layout : LayerLayout := .fused
  deriving DecidableEq, Repr

/-- Words for the policies. -/
def WriteDefaultsPolicy.words : List (String × WriteDefaultsPolicy) :=
  [("Auto", .auto), ("Off", .off), ("On", .on)]

/-- Words for the layouts. -/
def LayerLayout.words : List (String × LayerLayout) := [("Fused", .fused), ("Split", .split)]

end AvatarBits
