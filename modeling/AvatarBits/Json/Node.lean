import AvatarBits.Number.Reading

/-!
# A text's values as far as it can be read

A `Node` is the tree of a text up to the place where it stops being readable,
if there is one. That place is the last one in the tree in reading order, so a
reader that walks the tree meets shape complaints and the break in the order in
which the text shows them.

A value that is skipped is held to less than one that is read: only the grammar
of its numbers and strings counts, not their content, and it may nest at will.
Where a choice by name is due, nothing but the first character of a word or
number is looked at. Where these differ a `Break` has all faults.

* `Node.skipFault?`: the fault that a skipped value meets.
* `Node.wholeFault?`: the fault that a value read whole meets.
-/
namespace AvatarBits.Json

/-- Why a text is no JSON: it ends early, or it has something out of place. -/
inductive Fault where
  | truncated
  | malformed
  deriving DecidableEq, Repr

/-- The end of the readable part: the fault for a value that is read, for one that is skipped,
and for one that stands where a name is due. -/
structure Break where
  read : Fault
  skipped : Fault
  named : Fault
  deriving DecidableEq, Repr

namespace Break

/-- The text ends early. -/
def truncated : Break := ⟨.truncated, .truncated, .truncated⟩

/-- Something is out of place. -/
def malformed : Break := ⟨.malformed, .malformed, .malformed⟩

/-- The text ends inside a word, which is no name. -/
def word : Break := ⟨.truncated, .truncated, .malformed⟩

end Break

/-- A member's name. One without content has unpaired surrogates. -/
inductive Key where
  | text (content : Option String)
  | broken (b : Break)
  deriving DecidableEq, Repr

/-- A value of a text. A string without content has unpaired surrogates; the break of an array
or object is the one met where a comma or its end was due. -/
inductive Node where
  | null
  | bool (b : Bool)
  | number (n : Numeral)
  | string (content : Option String)
  | array (items : List Node) (stop : Option Break)
  | object (members : List (Key × Node)) (stop : Option Break)
  | broken (b : Break)
  deriving Inhabited

/-- A whole text: its value, and the fault of anything that follows it. -/
structure Document where
  root : Node
  tail : Option Fault

namespace Node

mutual

/-- The fault that a skipped value meets. -/
def skipFault? : Node → Option Fault
  | .broken b => some b.skipped
  | .array items stop => skipItems? items <|> stop.map Break.skipped
  | .object members stop => skipMembers? members <|> stop.map Break.skipped
  | _ => none

/-- The first fault of skipped items. -/
def skipItems? : List Node → Option Fault
  | [] => none
  | n :: ns => skipFault? n <|> skipItems? ns

/-- The first fault of skipped members. -/
def skipMembers? : List (Key × Node) → Option Fault
  | [] => none
  | (.broken b, _) :: _ => some b.skipped
  | (.text _, n) :: ms => skipFault? n <|> skipMembers? ms

end

mutual

/-- The fault that a value meets when all of it is read, at most `depth` levels deep. -/
def wholeFault? (depth : Nat) : Node → Option Fault
  | .broken b => some b.read
  | .number n => if n.read.isNone then some .malformed else none
  | .string none => some .malformed
  | .array items stop =>
    match depth with
    | 0 => some .malformed
    | d + 1 => wholeItems? d items <|> stop.map Break.read
  | .object members stop =>
    match depth with
    | 0 => some .malformed
    | d + 1 => wholeMembers? d members <|> stop.map Break.read
  | _ => none

/-- The first fault of items read whole. -/
def wholeItems? (depth : Nat) : List Node → Option Fault
  | [] => none
  | n :: ns => wholeFault? depth n <|> wholeItems? depth ns

/-- The first fault of members read whole. -/
def wholeMembers? (depth : Nat) : List (Key × Node) → Option Fault
  | [] => none
  | (.broken b, _) :: _ => some b.read
  | (.text none, _) :: _ => some .malformed
  | (.text (some _), n) :: ms => wholeFault? depth n <|> wholeMembers? depth ms

end

end Node

end AvatarBits.Json
