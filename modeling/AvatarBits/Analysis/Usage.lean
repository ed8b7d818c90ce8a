/-!
# Write-defaults usage and session tallies

* `DefaultsUsage`: how many states were seen, and how many write defaults.
* `Tally`: what was looked at and generated, summed over a session.
* `Tally.text`: the report of a tally.
-/
namespace AvatarBits

/-- States seen, and those that write defaults. -/
structure DefaultsUsage where
  states : Nat := 0
  writing : Nat := 0
  deriving DecidableEq, Repr

namespace DefaultsUsage

/-- See a state. -/
def observe (u : DefaultsUsage) (writes : Bool) : DefaultsUsage :=
  ⟨u.states + 1, u.writing + writes.toNat⟩

/-- There are states, and all of them write defaults. -/
def all (u : DefaultsUsage) : Bool := 0 < u.states && u.writing == u.states

/-- Some states write defaults and some do not. -/
def mixed (u : DefaultsUsage) : Bool := 0 < u.writing && u.writing < u.states

end DefaultsUsage

/-! ## Tallies -/

/-- Counts of what a session looked at and generated. -/
structure Tally where
  pages : Nat := 0
  controls : Nat := 0
  states : Nat := 0
  actions : Nat := 0
  conditions : Nat := 0
  pruned : Nat := 0
  packed : Nat := 0
  bits : Nat := 0
  newStates : Nat := 0
  newTransitions : Nat := 0
  deriving DecidableEq, Repr

namespace Tally

/-- Counts of two parts of a session together. -/
def add (a b : Tally) : Tally where
  pages := a.pages + b.pages
  controls := a.controls + b.controls
  states := a.states + b.states
  actions := a.actions + b.actions
  conditions := a.conditions + b.conditions
  pruned := a.pruned + b.pruned
  packed := a.packed + b.packed
  bits := a.bits + b.bits
  newStates := a.newStates + b.newStates
  newTransitions := a.newTransitions + b.newTransitions

instance : Add Tally := ⟨add⟩

/-- A page was opened. -/
def page (controls : Nat) : Tally := { pages := 1, controls }

/-- A parameter was packed. -/
def codec (bits states transitions : Nat) : Tally :=
  { packed := 1, bits, newStates := states, newTransitions := transitions }

/-- The counts with their labels. -/
def lines (t : Tally) : List (String × Nat) :=
  [("Menu pages visited", t.pages), ("Menu controls inspected", t.controls),
    ("Controller states visited", t.states), ("Driver actions inspected", t.actions),
    ("Conditions inspected", t.conditions), ("Parameters pruned", t.pruned),
    ("Parameters compressed", t.packed), ("Synced bits allocated", t.bits),
    ("States generated", t.newStates), ("Transitions generated", t.newTransitions)]

/-- The report of a tally, a line to a count. -/
def text (t : Tally) : String :=
  "Compilation Session Statistics:\n"
    ++ String.join (t.lines.map fun (label, n) => s!"  {label}: {n}\n")

end Tally

end AvatarBits
