import AvatarBits.Analysis.Bounds

/-!
# Bounds with an index

A table of bounds beside an index that says where each name stands, so that no
name has to be searched for. Tracking a name adds to both, raising it changes the
entry at its position, and pruning makes a new index for the entries that stay.

A position without an entry would be a defect of the index, and there the answer
is that the name is not tracked.
-/
namespace AvatarBits

/-- Bounds in the order of tracking, and their positions by name. -/
structure IndexedTable where
  entries : List (String × Int) := []
  /-- The newest position of a name stands first, and counts. -/
  index : List (String × Nat) := []
  deriving DecidableEq

namespace IndexedTable

/-- Position of a tracked name. -/
def position? (t : IndexedTable) (name : String) : Option Nat := t.index.lookup name

/-- Whether a name is tracked. -/
def contains (t : IndexedTable) (name : String) : Bool := (t.position? name).isSome

/-- Bound of a tracked name. -/
def get? (t : IndexedTable) (name : String) : Option Int :=
  (t.position? name).bind fun i => (t.entries[i]?).map Prod.snd

/-- Track a name from a first value on, its whole part or zero, and tell whether it is new. A name
that is tracked keeps its bound. -/
def seed (t : IndexedTable) (name : String) (value : Single) : Bool × IndexedTable :=
  if t.contains name then (false, t)
  else (true, ⟨t.entries ++ [(name, max value.truncate 0)], (name, t.entries.length) :: t.index⟩)

/-- Raise the bound of a name, if it is tracked, and tell what it is then. -/
def raise (t : IndexedTable) (name : String) (candidate : Single) : Option Int × IndexedTable :=
  match t.position? name with
  | none => (none, t)
  | some i =>
    let entries := t.entries.modify i fun e => (e.1, BoundTable.raised e.2 candidate)
    ((entries[i]?).map Prod.snd, { t with entries })

/-- The index of entries. -/
def positions (entries : List (String × Int)) : List (String × Nat) :=
  entries.zipIdx.foldl (fun index (e, i) => (e.1, i) :: index) []

/-- Remove the entries above a limit, and tell them. -/
def prune (t : IndexedTable) (limit : Int) : List (String × Int) × IndexedTable :=
  let (kept, removed) := t.entries.partition (·.2 ≤ limit)
  (removed, ⟨kept, positions kept⟩)

end IndexedTable

end AvatarBits
