import AvatarBits.Json.Node

/-!
# Values and their text

* `Value.write`: the text of a value, compact or with one line to an item, in
  front of any text that follows.
* `Value.node`: the tree that a reader of that text meets.
-/
namespace AvatarBits.Json

/-- A value to write. Members keep their order. -/
inductive Value where
  | null
  | bool (b : Bool)
  | number (n : Numeral)
  | string (s : String)
  | array (items : List Value)
  | object (members : List (String × Value))
  deriving Inhabited

/-! ## Strings -/

/-- A digit of base sixteen. -/
def hexDigit (n : Nat) : Char := Char.ofNat (if n < 10 then 48 + n else 87 + n)

/-- A character inside a string: quote, backslash and controls are escaped. -/
def writeChar (c : Char) : List Char :=
  if c = '"' then ['\\', '"']
  else if c = '\\' then ['\\', '\\']
  else if c = '\x08' then ['\\', 'b']
  else if c = '\t' then ['\\', 't']
  else if c = '\n' then ['\\', 'n']
  else if c = '\x0c' then ['\\', 'f']
  else if c = '\r' then ['\\', 'r']
  else if c.toNat < 0x20 then
    ['\\', 'u', '0', '0', hexDigit (c.toNat / 16), hexDigit (c.toNat % 16)]
  else [c]

/-- Characters of a string and its closing quote, in front of a text. -/
def writeChars : List Char → List Char → List Char
  | [], rest => '"' :: rest
  | c :: cs, rest => writeChar c ++ writeChars cs rest

/-- A string between quotes, in front of a text. -/
def writeString (s : String) (rest : List Char) : List Char := '"' :: writeChars s.toList rest

/-! ## Values -/

/-- How values are set out. -/
inductive Style where
  | compact
  | indented
  deriving DecidableEq, Repr

namespace Style

/-- The way to an item `depth` levels down: two blanks a level on a line of its own. -/
def newline : Style → Nat → List Char → List Char
  | .compact, _, rest => rest
  | .indented, depth, rest => '\n' :: (List.replicate (2 * depth) ' ' ++ rest)

/-- What parts a name from its value. -/
def colon : Style → List Char → List Char
  | .compact, rest => ':' :: rest
  | .indented, rest => ':' :: ' ' :: rest

end Style

namespace Value

mutual

/-- A value in front of a text. -/
def write (style : Style) (depth : Nat) : Value → List Char → List Char
  | .null, rest => "null".toList ++ rest
  | .bool b, rest => (if b then "true".toList else "false".toList) ++ rest
  | .number n, rest => n.chars ++ rest
  | .string s, rest => writeString s rest
  | .array [], rest => '[' :: ']' :: rest
  | .array (v :: vs), rest =>
    '[' :: style.newline (depth + 1) (write style (depth + 1) v
      (writeItems style (depth + 1) vs (style.newline depth (']' :: rest))))
  | .object [], rest => '\x7b' :: '\x7d' :: rest
  | .object ((k, v) :: ms), rest =>
    '\x7b' :: style.newline (depth + 1) (writeString k (style.colon (write style (depth + 1) v
      (writeMembers style (depth + 1) ms (style.newline depth ('\x7d' :: rest))))))

/-- The items after the first. -/
def writeItems (style : Style) (depth : Nat) : List Value → List Char → List Char
  | [], rest => rest
  | v :: vs, rest =>
    ',' :: style.newline depth (write style depth v (writeItems style depth vs rest))

/-- The members after the first. -/
def writeMembers (style : Style) (depth : Nat) : List (String × Value) → List Char → List Char
  | [], rest => rest
  | (k, v) :: ms, rest =>
    ',' :: style.newline depth (writeString k (style.colon (write style depth v
      (writeMembers style depth ms rest))))

end

/-- The text of a value. -/
def text (style : Style) (v : Value) : String := String.ofList (v.write style 0 [])

mutual

/-- The tree that a reader of the value's text meets. -/
def node : Value → Node
  | .null => .null
  | .bool b => .bool b
  | .number n => .number n
  | .string s => .string (some s)
  | .array vs => .array (nodes vs) none
  | .object ms => .object (members ms) none

/-- The trees of items. -/
def nodes : List Value → List Node
  | [] => []
  | v :: vs => node v :: nodes vs

/-- The trees of members. -/
def members : List (String × Value) → List (Key × Node)
  | [] => []
  | (k, v) :: ms => (.text (some k), node v) :: members ms

end

/-! ## Building values -/

/-- An integer. -/
def int (i : Int) : Value := .number (.ofInt i)

/-- A list, item by item. -/
def list {α : Type} (item : α → Value) (xs : List α) : Value := .array (xs.map item)

/-- A value or null. -/
def option {α : Type} (value : α → Value) : Option α → Value
  | none => .null
  | some x => value x

end Value

end AvatarBits.Json
