import AvatarBits.Text.Hidden

/-!
# Text between quotes in a complaint

A text is shown between double quotes. Quote, backslash, tab and line ends take
a backslash, as does the null character; any other character without an
appearance of its own is shown as `\u` and its number between braces.

* `Text.quoted`: the text between quotes.
-/
namespace AvatarBits.Text

/-- The number of a character in base sixteen, lower case and without leading zeros. -/
def hexDigits (n : Nat) : List Char := Nat.toDigits 16 n

/-- A character as it stands between quotes. -/
def shown (c : Char) : List Char :=
  if c = '\x00' then ['\\', '0']
  else if c = '\t' then ['\\', 't']
  else if c = '\n' then ['\\', 'n']
  else if c = '\r' then ['\\', 'r']
  else if c = '"' then ['\\', '"']
  else if c = '\\' then ['\\', '\\']
  else if isHidden c then ['\\', 'u', '\x7b'] ++ hexDigits c.toNat ++ ['\x7d']
  else [c]

/-- A text between quotes. -/
def quoted (s : String) : String :=
  String.ofList (['"'] ++ s.toList.flatMap shown ++ ['"'])

end AvatarBits.Text
