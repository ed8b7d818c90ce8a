import AvatarBits.Number.Binary
import AvatarBits.Number.Numeral

/-!
# What a numeral means

A numeral without point and power that fits eight bytes is that integer. Any
other is read through `Double`: the leading digits that fit eight bytes, taken
as one integer, times or over a power of ten, each step rounded once. A
magnitude beyond `Double` has no reading at all; one below it reads as zero.

* `Numeral.read`: the number of a numeral.
* `Number.toSingle`: the number of an avatar description that it stands for;
  an integer is rounded once, anything else a second time.
-/
namespace AvatarBits

/-! Powers are those of the core library here, whatever else is imported. -/
attribute [local instance (2000)] instPowNat

/-- A number read from a text. -/
inductive Number where
  | int (i : Int)
  | real (x : Double)
  deriving DecidableEq

namespace Number

/-- The single-precision number that a text's number stands for. -/
def toSingle : Number → Single
  | .int i => .ofInt i
  | .real x => x.round .single

end Number

/-! ## Powers of ten -/

/-- The nearest number to a power of ten. -/
def Double.ten (n : Nat) : Double := .ofRatio false (10 ^ n * 2 ^ Format.double.scale) 1

/-- Greatest power of ten in the range of `Double`. -/
def topTen : Nat := 308

/-- `x / 10 ^ n`, in steps of at most `topTen`. -/
def Double.overTen (x : Double) (n : Nat) : Double :=
  if n ≤ topTen then x / ten n
  else if x.isZero then x
  else overTen (x / ten topTen) (n - topTen)
termination_by n
decreasing_by unfold topTen at *; omega

/-- `x * 10 ^ n`, or nothing beyond the range. -/
def Double.timesTen? (x : Double) (n : Nat) : Option Double :=
  if n ≤ topTen then
    match x * ten n with
    | .infinite _ => none
    | y => some y
  else if x.isZero then some x else none

/-! ## Significand -/

namespace Numeral

/-- Least natural number that does not fit eight bytes. -/
def longTop : Nat := 0x10000000000000000

/-- Read digits onto a significand while it fits eight bytes; the digits left over. -/
def absorb (sig : Nat) : List Digit → Nat × List Digit
  | [] => (sig, [])
  | d :: ds => if 10 * sig + d.val < longTop then absorb (10 * sig + d.val) ds else (sig, d :: ds)

theorem absorb_lt {sig : Nat} (h : sig < longTop) (ds : List Digit) :
    (absorb sig ds).1 < longTop := by
  induction ds generalizing sig with
  | nil => exact h
  | cons d ds ih => unfold absorb; split <;> simp_all

/-- The significand and its power of ten: whole digits that do not fit count as
zeros, digits after the point are dropped from the first that does not fit. -/
def significand (n : Numeral) : Nat × Int :=
  let (whole, dropped) := absorb 0 n.whole
  let frac := n.frac.getD []
  let (sig, rest) := absorb whole frac
  (sig, (dropped.length : Int) - (frac.length - rest.length : Nat))

/-- The integer of a numeral, if its form and size make it one; `-0` is not. -/
def int? (n : Numeral) : Option Int :=
  match n.frac, n.power, absorb 0 n.whole with
  | none, none, (sig, []) =>
    if n.neg then (if 0 < sig ∧ 2 * sig ≤ longTop then some (-(sig : Int)) else none) else some sig
  | _, _, _ => none

/-- The power of ten written after the digits; a power of four bytes or more is no number. -/
def writtenPower (n : Numeral) : Option Int :=
  match n.power with
  | none => some 0
  | some (s, ds) =>
    let e := Digit.value ds
    if wordMax < (e : Int) then none else some (signed s e)

/-- The number that a numeral reads as through `Double`, or nothing beyond the range. -/
def double? (n : Numeral) : Option Double :=
  let (sig, shift) := n.significand
  let start : Double := .ofInt sig
  let magnitude : Option Double :=
    match n.writtenPower, n.power with
    | none, some (false, _) => if sig = 0 then some (.zero false) else none
    | none, _ => some (.zero false)
    | some e, _ =>
      let e := shift + e
      if e < 0 then some (start.overTen e.natAbs) else start.timesTen? e.natAbs
  magnitude.map fun x => if n.neg then -x else x

/-- The number of a numeral, or nothing when it is out of range. -/
def read (n : Numeral) : Option Number :=
  match n.int? with
  | some i => some (.int i)
  | none => n.double?.map .real

end Numeral

end AvatarBits
