import AvatarBits.Json.Node

/-!
# From text to nodes

`Document.scan` reads a text from left to right. Each scanner returns what it
read and the text after it, or no text when the text broke inside.
-/
namespace AvatarBits.Json

/-- Blank characters between the parts of a text. -/
def isBlank (c : Char) : Bool := c = ' ' || c = '\t' || c = '\n' || c = '\r'

/-- A text without the blanks in front. -/
def skipBlank (s : List Char) : List Char := s.dropWhile isBlank

/-! ## Strings -/

/-- A part of a string: a character as it stands, or a unit of sixteen bits given by number. -/
inductive Piece where
  | char (c : Char)
  | unit (n : Nat)

namespace Piece

/-- First half of a surrogate pair. -/
def isHigh (n : Nat) : Bool := 0xd800 ≤ n && n < 0xdc00

/-- Second half of a surrogate pair. -/
def isLow (n : Nat) : Bool := 0xdc00 ≤ n && n < 0xe000

/-- The character of a surrogate pair. -/
def pair (high low : Nat) : Char := Char.ofNat (0x10000 + (high - 0xd800) * 0x400 + (low - 0xdc00))

/-- The characters of a string, or nothing when a surrogate stands alone. A first half at the
end stands alone unless `more` of the string may follow. -/
def join (more : Bool) : List Piece → Option (List Char)
  | [] => some []
  | .char c :: ps => (join more ps).map (c :: ·)
  | .unit n :: ps =>
    if isHigh n then
      match ps with
      | [] => if more then some [] else none
      | .unit m :: qs => if isLow m then (join more qs).map (pair n m :: ·) else none
      | .char _ :: _ => none
    else if isLow n then none
    else (join more ps).map (Char.ofNat n :: ·)

end Piece

/-- The number of a hexadecimal digit. -/
def hexValue? (c : Char) : Option Nat :=
  let n := c.toNat
  if 48 ≤ n ∧ n < 58 then some (n - 48)
  else if 97 ≤ n ∧ n < 103 then some (n - 87)
  else if 65 ≤ n ∧ n < 71 then some (n - 55)
  else none

/-- The number of four hexadecimal digits. -/
def unit? (a b c d : Char) : Option Nat :=
  match hexValue? a, hexValue? b, hexValue? c, hexValue? d with
  | some a, some b, some c, some d => some (4096 * a + 256 * b + 16 * c + d)
  | _, _, _, _ => none

/-- Four digits are due and there are not as many characters: with fewer than four bytes of text
it ends early. -/
def unitDue (s : List Char) : Fault :=
  if (String.ofList s).utf8ByteSize < 4 then .truncated else .malformed

/-- The character of a one-letter escape. -/
def escaped? : Char → Option Char
  | '"' => some '"'
  | '\\' => some '\\'
  | '/' => some '/'
  | 'b' => some '\x08'
  | 'f' => some '\x0c'
  | 'n' => some '\n'
  | 'r' => some '\r'
  | 't' => some '\t'
  | _ => none

/-- The parts of a string up to its closing quote, and the text after it or the fault. -/
def scanPieces : List Char → List Piece × Except Fault (List Char)
  | [] => ([], .error .truncated)
  | c :: r =>
    if c = '"' then ([], .ok r)
    else if c = '\\' then
      match r with
      | [] => ([], .error .truncated)
      | e :: r =>
        if e = 'u' then
          match r with
          | a :: b :: c :: d :: r =>
            match unit? a b c d with
            | none => ([], .error .malformed)
            | some n =>
              let (ps, rest) := scanPieces r
              (.unit n :: ps, rest)
          | r => ([], .error (unitDue r))
        else
          match escaped? e with
          | none => ([], .error .malformed)
          | some c =>
            let (ps, rest) := scanPieces r
            (.char c :: ps, rest)
    else if c.toNat < 0x20 then ([], .error .malformed)
    else
      let (ps, rest) := scanPieces r
      (.char c :: ps, rest)

/-- A string after its opening quote. A surrogate that stands alone before a break comes first
to a reader of the string. -/
def scanString (s : List Char) : Except Break (Option String × List Char) :=
  match scanPieces s with
  | (ps, .ok rest) => .ok ((Piece.join false ps).map String.ofList, rest)
  | (ps, .error f) =>
    let read := if (Piece.join true ps).isNone then .malformed else f
    .error ⟨read, f, read⟩

/-! ## Numbers -/

/-- The digits in front, and the text after them. -/
def scanDigits : List Char → List Digit × List Char
  | [] => ([], [])
  | c :: r =>
    match Digit.ofChar? c with
    | none => ([], c :: r)
    | some d =>
      let (ds, rest) := scanDigits r
      (d :: ds, rest)

/-- The break where a digit is due: only a value that is read tells an early end apart. -/
def digitDue (s : List Char) : Break :=
  ⟨if s.isEmpty then .truncated else .malformed, .malformed, .malformed⟩

/-- One or more digits. -/
def scanDigits1 (s : List Char) : Except Break (List Digit × List Char) :=
  match scanDigits s with
  | ([], r) => .error (digitDue r)
  | (ds, r) => .ok (ds, r)

/-- Digits before a point: no zero in front of another digit. -/
def scanWhole (s : List Char) : Except Break (List Digit × List Char) :=
  match scanDigits1 s with
  | .ok (0 :: _ :: _, _) => .error .malformed
  | r => r

/-- The part after a point, if there is one. -/
def scanFrac : List Char → Except Break (Option (List Digit) × List Char)
  | '.' :: s => (scanDigits1 s).map fun (ds, r) => (some ds, r)
  | s => .ok (none, s)

/-- The sign of a power. -/
def scanSign : List Char → Bool × List Char
  | '-' :: s => (true, s)
  | '+' :: s => (false, s)
  | s => (false, s)

/-- The power of ten, if there is one. -/
def scanPower (s : List Char) : Except Break (Option (Bool × List Digit) × List Char) :=
  match s with
  | c :: r =>
    if c = 'e' || c = 'E' then
      let (neg, r) := scanSign r
      (scanDigits1 r).map fun (ds, r) => (some (neg, ds), r)
    else .ok (none, s)
  | [] => .ok (none, s)

/-- A number after its sign. -/
def scanNumeral (neg : Bool) (s : List Char) : Except Break (Numeral × List Char) := do
  let (whole, s) ← scanWhole s
  let (frac, s) ← scanFrac s
  let (power, s) ← scanPower s
  return (⟨neg, whole, frac, power⟩, s)

/-! ## Values -/

/-- What a scanner read, and the text after it unless the text broke. -/
structure Scanned (α : Type) where
  got : α
  rest : Option (List Char)

/-- A word after its first letter. -/
def scanWord (node : Node) : List Char → List Char → Scanned Node
  | [], s => ⟨node, some s⟩
  | _ :: _, [] => ⟨.broken .word, none⟩
  | w :: ws, c :: s => if c = w then scanWord node ws s else ⟨.broken .malformed, none⟩

/-- A node from a scanned number. -/
def Scanned.ofNumeral : Except Break (Numeral × List Char) → Scanned Node
  | .ok (n, r) => ⟨.number n, some r⟩
  | .error b => ⟨.broken b, none⟩

mutual

/-- One value. The budget bounds the number of values and items begun. -/
def scanValue : (budget : Nat) → List Char → Scanned Node
  | 0, _ => ⟨.broken .malformed, none⟩
  | budget + 1, s =>
    match skipBlank s with
    | [] => ⟨.broken .truncated, none⟩
    | c :: r =>
      if c = 'n' then scanWord .null "ull".toList r
      else if c = 't' then scanWord (.bool true) "rue".toList r
      else if c = 'f' then scanWord (.bool false) "alse".toList r
      else if c = '"' then
        match scanString r with
        | .ok (content, r) => ⟨.string content, some r⟩
        | .error b => ⟨.broken b, none⟩
      else if c = '-' then .ofNumeral (scanNumeral true r)
      else if (Digit.ofChar? c).isSome then .ofNumeral (scanNumeral false (c :: r))
      else if c = '[' then
        match skipBlank r with
        | [] => ⟨.array [] (some .truncated), none⟩
        | c :: r =>
          if c = ']' then ⟨.array [] none, some r⟩
          else
            let ⟨(items, stop), rest⟩ := scanItems budget (c :: r)
            ⟨.array items stop, rest⟩
      else if c = '\x7b' then
        match skipBlank r with
        | [] => ⟨.object [] (some .truncated), none⟩
        | c :: r =>
          if c = '\x7d' then ⟨.object [] none, some r⟩
          else
            let ⟨(members, stop), rest⟩ := scanMembers budget (c :: r)
            ⟨.object members stop, rest⟩
      else ⟨.broken .malformed, none⟩

/-- An item, those after it, and the closing bracket. -/
def scanItems : (budget : Nat) → List Char → Scanned (List Node × Option Break)
  | 0, _ => ⟨([], some .malformed), none⟩
  | budget + 1, s =>
    let ⟨item, rest⟩ := scanValue budget s
    match rest with
    | none => ⟨([item], none), none⟩
    | some r =>
      match skipBlank r with
      | [] => ⟨([item], some .truncated), none⟩
      | c :: r =>
        if c = ']' then ⟨([item], none), some r⟩
        else if c = ',' then
          let ⟨(items, stop), rest⟩ := scanItems budget r
          ⟨(item :: items, stop), rest⟩
        else ⟨([item], some .malformed), none⟩

/-- A member, those after it, and the closing brace. -/
def scanMembers : (budget : Nat) → List Char → Scanned (List (Key × Node) × Option Break)
  | 0, _ => ⟨([], some .malformed), none⟩
  | budget + 1, s =>
    match skipBlank s with
    | [] => ⟨([(.broken .truncated, .null)], none), none⟩
    | c :: r =>
      if c = '"' then
        match scanString r with
        | .error b => ⟨([(.broken b, .null)], none), none⟩
        | .ok (key, r) =>
          match skipBlank r with
          | [] => ⟨([(.text key, .broken .truncated)], none), none⟩
          | c :: r =>
            if c = ':' then
              let ⟨item, rest⟩ := scanValue budget r
              match rest with
              | none => ⟨([(.text key, item)], none), none⟩
              | some r =>
                match skipBlank r with
                | [] => ⟨([(.text key, item)], some .truncated), none⟩
                | c :: r =>
                  if c = '\x7d' then ⟨([(.text key, item)], none), some r⟩
                  else if c = ',' then
                    let ⟨(members, stop), rest⟩ := scanMembers budget r
                    ⟨((.text key, item) :: members, stop), rest⟩
                  else ⟨([(.text key, item)], some .malformed), none⟩
            else ⟨([(.text key, .broken .malformed)], none), none⟩
      else ⟨([(.broken .malformed, .null)], none), none⟩

end

/-- A whole text. Nothing but blanks may follow its value. -/
def Document.scan (text : String) : Document :=
  let s := text.toList
  let ⟨root, rest⟩ := scanValue (2 * s.length + 2) s
  match rest with
  | none => ⟨root, none⟩
  | some r => ⟨root, if (skipBlank r).isEmpty then none else some .malformed⟩

end AvatarBits.Json
