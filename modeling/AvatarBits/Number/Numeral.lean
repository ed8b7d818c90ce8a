/-!
# Decimal numerals as written

A `Numeral` keeps a number's digits apart from its value, since one text reads
differently where an integer, an eight-byte or a four-byte number is wanted.
`Numeral.chars` is its text.

Results:
* `digits_value`: the digits of a natural number are its value in base ten.
-/
namespace AvatarBits

/-- A decimal digit. -/
abbrev Digit := Fin 10

namespace Digit

/-- The character of a digit. -/
def char (d : Digit) : Char := Char.ofNat (48 + d.val)

/-- The digit of a character. -/
def ofChar? (c : Char) : Option Digit :=
  if h : 48 ≤ c.toNat ∧ c.toNat < 58 then some ⟨c.toNat - 48, by omega⟩ else none

theorem ofChar?_char : ∀ d : Digit, ofChar? d.char = some d := by decide

/-- The number that digits spell, most significant first. -/
def value (ds : List Digit) : Nat := ds.foldl (fun n d => 10 * n + d.val) 0

theorem value_append_singleton (ds : List Digit) (d : Digit) :
    value (ds ++ [d]) = 10 * value ds + d.val := by
  simp [value]

end Digit

/-- The digits of a natural number; zero has one. -/
def digits (n : Nat) : List Digit :=
  if h : n < 10 then [⟨n, h⟩]
  else digits (n / 10) ++ [⟨n % 10, Nat.mod_lt _ (by decide)⟩]

theorem digits_value (n : Nat) : Digit.value (digits n) = n := by
  fun_induction digits n with
  | case1 n h => simp [Digit.value]
  | case2 n h ih => rw [Digit.value_append_singleton, ih]; simp only; omega

/-- A number as written: sign, whole digits, digits after a point, and the sign
(set when negative) and digits of a power of ten. -/
structure Numeral where
  neg : Bool
  whole : List Digit
  frac : Option (List Digit)
  power : Option (Bool × List Digit)
  deriving DecidableEq, Repr, Inhabited

namespace Numeral

/-- The text of a numeral: a point before the fraction, `e` and a sign before the power. -/
def chars (n : Numeral) : List Char :=
  (if n.neg then ['-'] else []) ++ n.whole.map Digit.char
    ++ (match n.frac with
      | none => []
      | some ds => '.' :: ds.map Digit.char)
    ++ (match n.power with
      | none => []
      | some (s, ds) => 'e' :: (if s then '-' else '+') :: ds.map Digit.char)

/-- The numeral of an integer. -/
def ofInt (i : Int) : Numeral := ⟨decide (i < 0), digits i.natAbs, none, none⟩

end Numeral

end AvatarBits
