import AvatarBits.Avatar.Controller
import AvatarBits.Codec.Bits
import AvatarBits.Error

/-!
# Search trees of a codec

A codec of a parameter with bound `M` has two trees with one leaf for each value
from `0` to `M`. Nodes are grouped by fours, level by level, until at most four
are left; those hang off the root. The encode tree finds the leaf of an integer
and sets the bits there; the decode tree finds the leaf of the bits, a base-four
digit at a time, and sets the integer. Every node can be left for the root as
soon as what led to it no longer holds.

Nodes are numbered level by level, leaf `i` being node `i`.

* `Place`: where a node stands, and the span of values below it.
* `Codec.tree`: the tree of a codec in one of its roles.
-/
namespace AvatarBits

/-! Powers are those of the core library here, whatever else is imported. -/
attribute [local instance (2000)] instPowNat

/-- Nodes in a group. -/
def radix : Nat := 4

/-- The two halves of a codec. -/
inductive Role where
  | encode
  | decode
  deriving DecidableEq, Repr

/-- Word in front of the names of a half's nodes. -/
def Role.word : Role → String
  | .encode => "encode"
  | .decode => "decode"

/-- Names of the halves. -/
def Role.words : List (String × Role) := [("Encode", .encode), ("Decode", .decode)]

/-! ## Places -/

/-- Where a node stands: its level, leaves being at zero, and its position there. -/
structure Place where
  level : Nat
  index : Nat
  deriving DecidableEq, Repr

namespace Place

/-- Number of values below a node. -/
def span (p : Place) : Nat := radix ^ p.level

/-- Least value below a node. -/
def lo (p : Place) : Nat := p.index * p.span

/-- Greatest value below a node. -/
def hi (p : Place) : Nat := p.lo + p.span - 1

/-- A node's name. -/
def name (role : Role) (p : Place) : String :=
  if p.level = 0 then s!"{role.word}_{p.index}" else s!"{role.word}_l{p.level}_{p.index}"

theorem span_pos (p : Place) : 0 < p.span := Nat.pow_pos (by decide)

theorem lo_le_hi (p : Place) : p.lo ≤ p.hi := by have := p.span_pos; unfold hi; omega

end Place

/-! ## Trees -/

/-- The end of an edge. -/
inductive Target where
  | node (id : Nat)
  | root
  deriving DecidableEq, Repr

/-- An edge that is taken when all its conditions hold. -/
structure Edge where
  target : Target
  conditions : List Condition
  deriving DecidableEq

/-- A node: its place, what it writes when entered, and the edges that leave it in order. -/
structure TreeNode where
  place : Place
  name : String
  actions : List DriverAction
  edges : List Edge
  deriving DecidableEq

/-- A search tree. -/
structure SearchTree where
  parameter : String
  role : Role
  bound : Nat
  width : Nat
  nodes : List TreeNode
  rootEdges : List Edge
  depth : Nat
  deriving DecidableEq

namespace SearchTree

/-- Number of nodes that stand for a value. -/
def leafCount (t : SearchTree) : Nat := t.nodes.countP fun n => n.place.level = 0

/-- Number of edges, those of the root included. -/
def edgeCount (t : SearchTree) : Nat := t.rootEdges.length + (t.nodes.flatMap TreeNode.edges).length

end SearchTree

/-! ## Levels -/

/-- A level of a tree: the number of its first node, and how many it has. -/
structure Tier where
  level : Nat
  start : Nat
  count : Nat
  deriving DecidableEq, Repr

/-- The levels from one upward, each with a quarter of the nodes below it. -/
def tiers (t : Tier) : List Tier :=
  if t.count ≤ radix then [t]
  else t :: tiers ⟨t.level + 1, t.start + t.count, (t.count + 3) / radix⟩
termination_by t.count
decreasing_by simp only [radix] at *; omega

/-! ## Codecs -/

/-- A parameter to pack and its bound. -/
structure Codec where
  parameter : String
  bound : Nat
  bound_le : bound ≤ maxBound

namespace Codec

/-- The codec of a parameter, if its bound can be packed. -/
def make (parameter : String) (bound : Int) : Except PackError Codec :=
  if h : 0 ≤ bound ∧ bound ≤ maxBound then .ok ⟨parameter, bound.toNat, by omega⟩
  else .error (.boundOutOfRange parameter bound maxBound)

/-- Number of bits. -/
def width (c : Codec) : Nat := bitsFor c.bound

/-- Names of the bits, least significant first. -/
def bits (c : Codec) : List String := (List.range c.width).map (bitName c.parameter)

/-- A test of the integer. -/
def value (c : Codec) (mode : ConditionMode) (threshold : Int) : Condition :=
  ⟨mode, c.parameter, .ofInt threshold⟩

/-- A test of a bit. -/
def bitIs (c : Codec) (bit : Nat) (set : Bool) : Condition :=
  ⟨if set then .isSet else .notSet, bitName c.parameter bit, 0⟩

/-- What a leaf writes: the bits of its value, or the value. -/
def leafActions (c : Codec) : Role → (value : Nat) → List DriverAction
  | .encode, v =>
    (List.range c.width).map fun k => .set (bitName c.parameter k) (.ofInt (v.testBit k).toNat)
  | .decode, v => [.set c.parameter (.ofInt v)]

/-- What leads to a node from the one above it: its span holds the integer, or the two bits of its
digit agree, where the top digit of an odd width has one bit. -/
def enter (c : Codec) : Role → Place → List Condition
  | .encode, p =>
    if p.level = 0 then [c.value .equals p.index]
    else [c.value .greater ((p.lo : Int) - 1), c.value .less ((p.hi : Int) + 1)]
  | .decode, p =>
    let low := 2 * p.level
    c.bitIs low (p.index.testBit 0)
      :: (if low + 1 < c.width then [c.bitIs (low + 1) (p.index.testBit 1)] else [])

/-- What leads back to the root, each condition by itself: the integer is outside the span, or one
of the bits fixed so far differs. -/
def leave (c : Codec) : Role → Place → List Condition
  | .encode, p =>
    if p.level = 0 then [c.value .notEqual p.index]
    else [c.value .less p.lo, c.value .greater p.hi]
  | .decode, p =>
    (List.range' (2 * p.level) (c.width - 2 * p.level)).map fun k => c.bitIs k (!p.lo.testBit k)

/-- The edge to node `i` of a level. -/
def descent (c : Codec) (role : Role) (t : Tier) (i : Nat) : Edge :=
  ⟨.node (t.start + i), c.enter role ⟨t.level, i⟩⟩

/-- The edges from node `i` of a level to those below it. -/
def descents (c : Codec) (role : Role) (below : Option Tier) (i : Nat) : List Edge :=
  match below with
  | none => []
  | some t => (List.range' (radix * i) (min radix (t.count - radix * i))).map (c.descent role t)

/-- The edges back to the root. -/
def exits (c : Codec) (role : Role) (p : Place) : List Edge :=
  (c.leave role p).map fun condition => ⟨.root, [condition]⟩

/-- Node `i` of a level, given the level below it. -/
def node (c : Codec) (role : Role) (below : Option Tier) (level i : Nat) : TreeNode where
  place := ⟨level, i⟩
  name := Place.name role ⟨level, i⟩
  actions := if level = 0 then c.leafActions role i else []
  edges := c.descents role below i ++ c.exits role ⟨level, i⟩

/-- The nodes of levels, given the level below the first. -/
def nodes (c : Codec) (role : Role) : (below : Option Tier) → List Tier → List TreeNode
  | _, [] => []
  | below, t :: ts =>
    (List.range t.count).map (c.node role below t.level) ++ c.nodes role (some t) ts

/-- The levels of a codec's trees: a leaf for each value, then the groups. -/
def tiers (c : Codec) : List Tier := AvatarBits.tiers ⟨0, 0, c.bound + 1⟩

/-- The tree of a codec in one of its roles. -/
def tree (c : Codec) (role : Role) : SearchTree where
  parameter := c.parameter
  role := role
  bound := c.bound
  width := c.width
  nodes := c.nodes role none c.tiers
  rootEdges :=
    match c.tiers.getLast? with
    | none => []
    | some t => (List.range t.count).map (c.descent role t)
  depth := c.tiers.length

end Codec

end AvatarBits
