import AvatarBits.Json.Scan
import AvatarBits.Number.Shortest
import AvatarBits.Text.Quoted

/-!
# Reading shapes out of nodes

A `Reader` takes the number of levels that may still nest and a node, and gives
a value or the first complaint. Records are described by their fields
(`Record`), choices by their names; a record is read from an object or from an
array of its fields in order, a tagged choice from an object with the tag among
its members or from an array with the tag in front.

* `Cause.message?`: the wording of a complaint about shape.
* `Record.read`, `Record.ofContent`: a record of a text, and of what is left of a tagged choice.
-/
namespace AvatarBits.Json

/-! ## Complaints -/

/-- What a reader found. -/
inductive Found where
  | null
  | bool (b : Bool)
  | number (n : Number)
  | string (s : String)
  | sequence
  | map
  deriving DecidableEq

/-- What a reader found, in words. -/
def Found.text : Found → String
  | .null => "null"
  | .bool b => s!"boolean `{b}`"
  | .number (.int i) => s!"integer `{i}`"
  | .number (.real x) => s!"floating point `{Double.text x}`"
  | .string s => s!"string {Text.quoted s}"
  | .sequence => "sequence"
  | .map => "map"

/-- Why a text does not give a value: it is no JSON, or JSON of another shape. -/
inductive Cause where
  | fault (f : Fault)
  | wrongType (found : Found) (expected : String)
  | wrongValue (found : Found) (expected : String)
  | wrongLength (count : Nat) (expected : String)
  | missingField (name : String)
  | duplicateField (name : String)
  | unknownVariant (name : String) (known : List String)
  deriving DecidableEq

/-- A count of elements in words. -/
def elements (n : Nat) : String := if n = 1 then "1 element" else s!"{n} elements"

/-- Names of which one is wanted. -/
def oneOf : List String → String
  | [a] => s!"`{a}`"
  | [a, b] => s!"`{a}` or `{b}`"
  | names => "one of " ++ ", ".intercalate (names.map fun a => s!"`{a}`")

/-- The wording of a complaint about shape; a fault of the text has none. -/
def Cause.message? : Cause → Option String
  | .fault _ => none
  | .wrongType found expected => some s!"invalid type: {found.text}, expected {expected}"
  | .wrongValue found expected => some s!"invalid value: {found.text}, expected {expected}"
  | .wrongLength count expected => some s!"invalid length {count}, expected {expected}"
  | .missingField name => some s!"missing field `{name}`"
  | .duplicateField name => some s!"duplicate field `{name}`"
  | .unknownVariant name known => some s!"unknown variant `{name}`, expected {oneOf known}"

/-- Reads a node that may nest some levels. -/
abbrev Reader (α : Type) := (depth : Nat) → Node → Except Cause α

/-! ## Simple values -/

namespace Node

/-- What stands at a node. A container is known by its first character, anything else is read
whole. -/
def found : Node → Except Cause Found
  | .null => .ok .null
  | .bool b => .ok (.bool b)
  | .number n =>
    match n.read with
    | some n => .ok (.number n)
    | none => .error (.fault .malformed)
  | .string (some s) => .ok (.string s)
  | .string none => .error (.fault .malformed)
  | .array .. => .ok .sequence
  | .object .. => .ok .map
  | .broken b => .error (.fault b.read)

/-- The complaint about a node of the wrong type. -/
def unexpected (node : Node) (expected : String) : Cause :=
  match node.found with
  | .ok found => .wrongType found expected
  | .error cause => cause

end Node

namespace Reader

variable {α : Type}

/-- A string. -/
def string : Reader String := fun _ node => do
  match ← node.found with
  | .string s => return s
  | found => throw (.wrongType found "a string")

/-- A boolean. -/
def bool : Reader Bool := fun _ node => do
  match ← node.found with
  | .bool b => return b
  | found => throw (.wrongType found "a boolean")

/-- A number of an avatar description; an integer is one too. -/
def single : Reader Single := fun _ node => do
  match ← node.found with
  | .number n => return n.toSingle
  | found => throw (.wrongType found "f32")

/-- A whole number of four bytes. -/
def word : Reader Int := fun _ node => do
  match ← node.found with
  | .number (.int i) =>
    if wordMin ≤ i ∧ i ≤ wordMax then return i
    else throw (.wrongValue (.number (.int i)) "i32")
  | found => throw (.wrongType found "i32")

/-- A position in a list. -/
def index : Reader Nat := fun _ node => do
  match ← node.found with
  | .number (.int i) =>
    if 0 ≤ i then return i.toNat else throw (.wrongValue (.number (.int i)) "usize")
  | found => throw (.wrongType found "usize")

/-- A value, or null for none. -/
def option (r : Reader α) : Reader (Option α)
  | _, .null => return none
  | depth, node => some <$> r depth node

/-- A list, item by item. -/
def list (r : Reader α) : Reader (List α)
  | depth, .array items stop =>
    match depth with
    | 0 => throw (.fault .malformed)
    | d + 1 => do
      let xs ← items.mapM (r d)
      match stop with
      | some b => throw (.fault b.read)
      | none => return xs
  | _, node => throw (node.unexpected "a sequence")

/-! ## Choices by name -/

/-- The choice of a name. -/
def variant (choices : List (String × α)) (name : String) : Except Cause α :=
  match choices.lookup name with
  | some x => return x
  | none => throw (.unknownVariant name (choices.map Prod.fst))

/-- A choice by its name: a string, or an object whose one member has that name and is null. -/
def choice (choices : List (String × α)) : Reader α
  | _, .string (some name) => variant choices name
  | _, .string none => throw (.fault .malformed)
  | _, .broken b => throw (.fault b.named)
  | 0, .object .. => throw (.fault .malformed)
  | _ + 1, .object [] (some b) => throw (.fault b.read)
  | _ + 1, .object ((.broken b, _) :: _) _ => throw (.fault b.read)
  | _ + 1, .object ((.text (some name), node) :: more) stop => do
    let x ← variant choices name
    match node, more, stop with
    | .null, [], none => return x
    | .null, [], some b => throw (.fault b.read)
    | .null, _ :: _, _ => throw (.fault .malformed)
    | node, _, _ => throw (node.unexpected "unit")
  | _, _ => throw (.fault .malformed)

end Reader

/-! ## Records -/

/-- A named field: how its value is read into a record. -/
structure RecordField (α : Type) where
  name : String
  needed : Bool
  read : Reader (α → α)

namespace RecordField

variable {α β : Type}

/-- A field that must be there. -/
def required (name : String) (r : Reader β) (set : β → α → α) : RecordField α :=
  ⟨name, true, fun depth node => set <$> r depth node⟩

/-- A field that keeps its first value when it is absent. -/
def optional (name : String) (r : Reader β) (set : β → α → α) : RecordField α :=
  ⟨name, false, fun depth node => set <$> r depth node⟩

end RecordField

/-- The shape of a record: its name in complaints, the record before any field is read, and its
fields in order. -/
structure Record (α : Type) where
  title : String
  blank : α
  fields : List (RecordField α)

/-- What is left of a tagged choice beside its tag; all of it can be read. -/
inductive Content where
  | items (nodes : List Node)
  | members (fields : List (String × Node))

namespace Record

variable {α : Type}

/-- What an array of fields should have held. -/
def length (r : Record α) : String := s!"{r.title} with {elements r.fields.length}"

/-- The first required field that has not been seen. -/
def absent? (r : Record α) (seen : List String) : Option String :=
  (r.fields.find? fun f => f.needed && !seen.contains f.name).map RecordField.name

/-- Read one member into a record; a name that is no field is passed over. -/
def member (r : Record α) (depth : Nat) (skip : Node → Option Fault) (name : String) (node : Node)
    (acc : α × List String) : Except Cause (α × List String) :=
  match r.fields.find? (·.name == name) with
  | none =>
    match skip node with
    | some f => throw (.fault f)
    | none => return acc
  | some field =>
    if acc.2.contains name then throw (.duplicateField name)
    else do
      let set ← field.read depth node
      return (set acc.1, name :: acc.2)

/-- The record once every member is read. -/
def finish (r : Record α) (acc : α × List String) : Except Cause α :=
  match r.absent? acc.2 with
  | some name => throw (.missingField name)
  | none => return acc.1

/-- Read the members of an object in order. -/
def members (r : Record α) (depth : Nat) :
    List (Key × Node) → α × List String → Except Cause (α × List String)
  | [], acc => return acc
  | (.broken b, _) :: _, _ => throw (.fault b.read)
  | (.text none, _) :: _, _ => throw (.fault .malformed)
  | (.text (some name), node) :: ms, acc => do
    members r depth ms (← r.member depth Node.skipFault? name node acc)

/-- Read items into fields in order; the fields and the items left over. -/
def items (depth : Nat) :
    List (RecordField α) → List Node → α → Except Cause (α × List (RecordField α) × List Node)
  | f :: fs, n :: ns, acc => do
    let set ← f.read depth n
    items depth fs ns (set acc)
  | fs, ns, acc => return (acc, fs, ns)

/-- Read a record: from an object, or from an array of its fields in order. -/
def read (r : Record α) : Reader α
  | 0, .object .. | 0, .array .. => throw (.fault .malformed)
  | depth + 1, .object ms stop => do
    let acc ← r.members depth ms (r.blank, [])
    match stop with
    | some b => throw (.fault b.read)
    | none => r.finish acc
  | depth + 1, .array ns stop => do
    let (acc, fields, extra) ← items depth r.fields ns r.blank
    match extra, stop with
    | _ :: _, _ => throw (.fault .malformed)
    | [], some b => throw (.fault b.read)
    | [], none =>
      if fields.any RecordField.needed then throw (.wrongLength ns.length r.length) else return acc
  | _, node => throw (node.unexpected r.title)

/-- Read a record from what is left of a tagged choice. -/
def ofContent (r : Record α) (depth : Nat) : Content → Except Cause α
  | .members fs => do
    r.finish (← fs.foldlM (fun acc (name, node) => r.member depth (fun _ => none) name node acc)
      (r.blank, []))
  | .items ns => do
    let (acc, fields, extra) ← items depth r.fields ns r.blank
    if fields.any RecordField.needed then throw (.wrongLength ns.length r.length)
    else if !extra.isEmpty then
      throw (.wrongLength ns.length s!"{elements r.fields.length} in sequence")
    else return acc

end Record

/-! ## Tagged choices -/

/-- A choice by name, in a tag of a text. -/
def Reader.tag {α : Type} (choice : String → Except Cause α) : Node → Except Cause α :=
  fun node => do
    match ← node.found with
    | .string name => choice name
    | found => throw (.wrongType found "variant identifier")

/-- A choice by name or position, in a tag of a value that has been read before. -/
def Reader.tagOrPosition {α : Type} (choices : List (String × α)) : Node → Except Cause α :=
  fun node => do
    match ← node.found with
    | .string name => Reader.variant choices name
    | .number (.int i) =>
      if i < 0 then throw (.wrongType (.number (.int i)) "variant identifier")
      else
        match choices[i.toNat]? with
        | some (_, x) => return x
        | none =>
          throw (.wrongValue (.number (.int i)) s!"variant index 0 <= i < {choices.length}")
    | found => throw (.wrongType found "variant identifier")

namespace Content

variable {α : Type}

/-- Part the members of an object into the tag and the others, in order. -/
def ofMembers (name : String) (tag : Node → Except Cause α) (depth : Nat) :
    List (Key × Node) → Option α → Except Cause (Option α × List (String × Node))
  | [], found => return (found, [])
  | (.broken b, _) :: _, _ => throw (.fault b.read)
  | (.text none, _) :: _, _ => throw (.fault .malformed)
  | (.text (some key), node) :: ms, found => do
    if key = name then
      if found.isSome then throw (.duplicateField name)
      ofMembers name tag depth ms (some (← tag node))
    else
      match node.wholeFault? depth with
      | some f => throw (.fault f)
      | none =>
        let (found, rest) ← ofMembers name tag depth ms found
        return (found, (key, node) :: rest)

/-- Part a tagged choice into its tag and what is left. -/
def split (title name : String) (tag : Node → Except Cause α) : Reader (α × Content)
  | 0, .object .. | 0, .array .. => throw (.fault .malformed)
  | depth + 1, .object ms stop => do
    let (found, fields) ← ofMembers name tag depth ms none
    match stop, found with
    | some b, _ => throw (.fault b.read)
    | none, none => throw (.missingField name)
    | none, some x => return (x, .members fields)
  | _ + 1, .array [] stop =>
    match stop with
    | some b => throw (.fault b.read)
    | none => throw (.missingField name)
  | depth + 1, .array (n :: ns) stop => do
    let x ← tag n
    match Node.wholeItems? depth ns <|> stop.map Break.read with
    | some f => throw (.fault f)
    | none => return (x, .items ns)
  | _, node => throw (node.unexpected title)

/-- A choice without fields: members are passed over, items are too many. -/
def unit : Content → Except Cause Unit
  | .items (n :: ns) => throw (.wrongLength (n :: ns).length "0 elements in sequence")
  | _ => return ()

end Content

/-! ## Whole texts -/

/-- Levels that a text may nest. -/
def maxDepth : Nat := 127

/-- Read a text: the shape first, then what follows it. -/
def Reader.run {α : Type} (r : Reader α) (text : String) : Except Cause α := do
  let doc := Document.scan text
  let x ← r maxDepth doc.root
  match doc.tail with
  | some f => throw (.fault f)
  | none => return x

end AvatarBits.Json
