import AvatarBits.Number.Binary

/-!
# Expression parameters

The parameters that an avatar shows to its wearer. A synced one is sent over
the network on every change; a synced integer costs eight bits whatever its
range, so those are the candidates for packing.
-/
namespace AvatarBits

/-- Kind of an expression parameter. -/
inductive ValueType where
  | int
  | float
  | bool
  deriving DecidableEq, Repr

/-- One expression parameter. -/
structure Parameter where
  name : String
  type : ValueType
  synced : Bool := true
  default : Single := 0
  saved : Bool := false
  deriving DecidableEq

/-- Only synced integers are worth packing. -/
def Parameter.isCandidate (p : Parameter) : Bool := p.type = .int && p.synced

/-- Bits that a parameter takes on the network. -/
def Parameter.cost (p : Parameter) : Nat :=
  if p.synced then (match p.type with | .int | .float => 8 | .bool => 1) else 0

end AvatarBits
