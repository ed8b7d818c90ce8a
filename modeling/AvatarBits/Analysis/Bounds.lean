import AvatarBits.Number.Binary

/-!
# Bounds of parameters

A table of the greatest value that each tracked parameter was seen to take, in
the order in which tracking began. A bound only ever grows; a parameter leaves
the table only by being pruned.

Results:
* `BoundTable.get?_raise`: raising one bound keeps the others.
* `BoundTable.mem_prune`, `BoundTable.mem_above`: pruning parts the table at a limit.
-/
namespace AvatarBits

/-- Bounds by name, in the order of tracking. -/
structure BoundTable where
  entries : List (String × Int) := []
  deriving DecidableEq

namespace BoundTable

/-- Bound of a tracked name. -/
def get? (t : BoundTable) (name : String) : Option Int :=
  (t.entries.find? (·.1 == name)).map Prod.snd

/-- Whether a name is tracked. -/
def contains (t : BoundTable) (name : String) : Bool := t.entries.any (·.1 == name)

/-- Track a name from a first value on, its whole part or zero. A name that is tracked keeps its
bound. -/
def seed (t : BoundTable) (name : String) (value : Single) : BoundTable :=
  if t.contains name then t else ⟨t.entries ++ [(name, max value.truncate 0)]⟩

/-- A bound raised to a candidate: the comparison is one of numbers, and the whole part counts. -/
def raised (bound : Int) (candidate : Single) : Int :=
  max bound (Binary.max (.ofInt bound) candidate).truncate

/-- Raise the bound of a name, if it is tracked. -/
def raise (t : BoundTable) (name : String) (candidate : Single) : BoundTable :=
  ⟨t.entries.map fun (n, b) => if n = name then (n, raised b candidate) else (n, b)⟩

/-- Entries above a limit. -/
def above (t : BoundTable) (limit : Int) : List (String × Int) := t.entries.filter (limit < ·.2)

/-- The table without the entries above a limit. -/
def prune (t : BoundTable) (limit : Int) : BoundTable := ⟨t.entries.filter (·.2 ≤ limit)⟩

theorem get?_raise (t : BoundTable) (name n : String) (candidate : Single) :
    (t.raise name candidate).get? n
      = if n = name then (t.get? n).map (raised · candidate) else t.get? n := by
  obtain ⟨es⟩ := t
  unfold get? raise
  induction es with
  | nil => simp
  | cons e es ih =>
    obtain ⟨m, b⟩ := e
    by_cases hm : m = name <;> by_cases hn : n = m
    · subst hm; subst hn; simp
    · subst hm; simpa [Ne.symm hn] using ih
    · subst hn; simp [hm]
    · simpa [hm, Ne.symm hn] using ih

theorem mem_prune {t : BoundTable} {limit : Int} {e : String × Int} :
    e ∈ (t.prune limit).entries ↔ e ∈ t.entries ∧ e.2 ≤ limit := by simp [prune]

theorem mem_above {t : BoundTable} {limit : Int} {e : String × Int} :
    e ∈ t.above limit ↔ e ∈ t.entries ∧ limit < e.2 := by simp [above]

end BoundTable

end AvatarBits
