import AvatarBits.Number.Binary
import AvatarBits.Number.Numeral

/-!
# The fewest digits that read back

Every number owns an interval of reals that round to it, ends included when its
significand is even. Of the decimal grids `10 ^ k`, the coarsest with a point in
that interval gives the digits; of two such points the nearer is taken, and of
two equally near the even one.

* `Binary.shortest`: digits and power of ten of a positive magnitude.
* `Layout`: up to which power of ten digits are written around a point.
* `Binary.numeral`: the numeral of a finite number.
-/
namespace AvatarBits

/-! Powers are those of the core library here, whatever else is imported. -/
attribute [local instance (2000)] instPowNat

namespace Format

/-- Count of decimal digits of a magnitude, from above: `30103 / 100000` is just over `log 2`. -/
def decimalsAbove (bits : Nat) : Nat := bits * 30103 / 100000 + 1

/-- Powers of ten worth trying for a magnitude, from one too coarse for any number downward. -/
def grids (f : Format) (u : Nat) : List Int :=
  let most : Int := decimalsAbove (u.log2 + 1) - (f.scale * 30102 / 100000 : Nat)
  (List.range (f.precision / 2 + 4)).map fun i : Nat => most - (i : Int)

/-- The point of the grid `10 ^ k` that reads back as a positive magnitude `u`, if there is one.
Magnitudes are counted in quarter units here, so that the interval's ends are whole. -/
def onGrid? (f : Format) (u : Nat) (k : Int) : Option Nat :=
  let s := f.step u
  let narrow := s > 1 && u == 2 ^ u.log2
  let low := if narrow then 4 * u - s else 4 * u - 2 * s
  let high := 4 * u + 2 * s
  let even := u / s % 2 == 0
  let point := if 0 ≤ k then 10 ^ k.natAbs * 2 ^ (f.scale + 2) else 2 ^ (f.scale + 2)
  let den := if 0 ≤ k then 1 else 10 ^ k.natAbs
  let inside (d : Nat) : Bool :=
    if even then low * den ≤ d * point && d * point ≤ high * den
    else low * den < d * point && d * point < high * den
  let d := 4 * u * den / point
  let below := 4 * u * den - d * point
  let above := (d + 1) * point - 4 * u * den
  if inside d && inside (d + 1) then
    if below < above || below == above && d % 2 == 0 then some d else some (d + 1)
  else if inside d then some d
  else if inside (d + 1) then some (d + 1)
  else none

/-- The digits of a positive magnitude, as an integer, and the power of ten they count. -/
def shortest (f : Format) (u : Nat) : Nat × Int :=
  ((f.grids u).findSome? fun k => (f.onGrid? u k).map (·, k)).getD (0, 0)

end Format

/-- How digits are laid out: around a point between two powers of ten, with an explicit power
outside. -/
structure Layout where
  least : Int
  most : Int

namespace Layout

/-- Numbers of an avatar description: positional from `0.000001` to twelve places. -/
def single : Layout := ⟨-6, 12⟩

/-- Numbers quoted in a complaint: positional from `0.00001` to fifteen places. -/
def double : Layout := ⟨-5, 15⟩

/-- The numeral of `d * 10 ^ k`. A positional one always has a fraction. -/
def numeral (l : Layout) (neg : Bool) (d : Nat) (k : Int) : Numeral :=
  let ds := digits d
  let e := (ds.length : Int) - 1 + k
  if l.least ≤ e ∧ e ≤ l.most then
    if e < 0 then
      ⟨neg, [0], some (List.replicate (e.natAbs - 1) 0 ++ ds), none⟩
    else
      let n := e.natAbs + 1
      let frac := ds.drop n
      ⟨neg, ds.take n ++ List.replicate (n - ds.length) 0,
        some (if frac.isEmpty then [0] else frac), none⟩
  else
    let rest := ds.drop 1
    ⟨neg, ds.take 1, if rest.isEmpty then none else some rest,
      some (decide (e < 0), digits e.natAbs)⟩

end Layout

/-- The numeral of a finite number; infinities and not-a-number have none. -/
def Binary.numeral? {f : Format} (l : Layout) : Binary f → Option Numeral
  | .finite neg u _ =>
    if u = 0 then some (l.numeral neg 0 0)
    else
      let (d, k) := f.shortest u
      some (l.numeral neg d k)
  | _ => none

/-- The numeral of a finite number of an avatar description. -/
def Single.numeral? (x : Single) : Option Numeral := Binary.numeral? .single x

/-- The text of a number quoted in a complaint. -/
def Double.text : Double → String
  | .nan => "NaN"
  | .infinite neg => if neg then "-inf" else "inf"
  | x => ((Binary.numeral? .double x).map fun n => String.ofList n.chars).getD ""

end AvatarBits
