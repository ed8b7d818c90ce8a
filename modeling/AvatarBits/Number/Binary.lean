/-!
# Binary floating numbers over exact integers

A number of a binary `Format` is a sign and a count of *units*, the smallest
positive number of the format; `2 ^ scale` units make one. A count is a number
of the format when its low bits are zero from the significand down
(`Format.Fits`), so every comparison, truncation and conversion is a fact about
integers, and each operation is the exact result rounded once.

Results:
* `Format.step_dvd_roundUnits`: rounding lands on a count of the format.
* `Binary.lt_iff`, `Binary.eqv_iff`: order and equality are those of the exact values.
-/
namespace AvatarBits

/-! Powers are those of the core library here, whatever else is imported. -/
attribute [local instance (2000)] instPowNat

/-- A binary format: significands of `precision` bits, `2 ^ scale` units to one,
and magnitudes below `2 ^ top` units. -/
structure Format where
  precision : Nat
  scale : Nat
  top : Nat
  precision_pos : 0 < precision := by decide
  deriving DecidableEq

namespace Format

/-- Four bytes: the numbers of an avatar description. -/
def single : Format where
  precision := 24
  scale := 149
  top := 277

/-- Eight bytes: the numbers a text is read through. -/
def double : Format where
  precision := 53
  scale := 1074
  top := 2098

/-- Gap above a magnitude: one unit until the significand is full. -/
def step (f : Format) (u : Nat) : Nat := 2 ^ (u.log2 + 1 - f.precision)

/-- A magnitude that the format can hold. -/
def Fits (f : Format) (u : Nat) : Prop := u < 2 ^ f.top ∧ f.step u ∣ u

instance (f : Format) (u : Nat) : Decidable (f.Fits u) :=
  inferInstanceAs (Decidable (_ ∧ _))

/-- The integer nearest to `num / den`; a tie goes to the even one. -/
def roundDiv (num den : Nat) : Nat :=
  if 2 * (num % den) < den ∨ 2 * (num % den) = den ∧ num / den % 2 = 0 then num / den
  else num / den + 1

theorem roundDiv_le (num den : Nat) : roundDiv num den ≤ num / den + 1 := by
  unfold roundDiv; split <;> omega

/-- `num / den` units rounded to the significand, the top of the range left open. -/
def roundUnits (f : Format) (num den : Nat) : Nat :=
  let s := f.step (num / den)
  roundDiv num (den * s) * s

theorem step_dvd_of_lt (f : Format) {m k : Nat} (h : m < 2 ^ (k + 1)) :
    f.step m ∣ 2 ^ (k + 1 - f.precision) := by
  unfold step
  apply Nat.pow_dvd_pow
  by_cases hm : m = 0
  · subst hm; simp [Nat.log2_zero]; omega
  · have := (Nat.log2_lt hm).2 h; omega

/-- Rounding lands on a count whose bits below the significand are zero. -/
theorem step_dvd_roundUnits (f : Format) (num den : Nat) :
    f.step (f.roundUnits num den) ∣ f.roundUnits num den := by
  have hp := f.precision_pos
  unfold roundUnits
  dsimp only
  generalize hq : num / den = q
  have hm := roundDiv_le num (den * f.step q)
  rw [← Nat.div_div_eq_div_mul, hq] at hm
  generalize roundDiv num (den * f.step q) = m at hm
  have hqk : q < 2 ^ (q.log2 + 1) := Nat.lt_log2_self
  generalize hk : q.log2 = k at hqk
  have hs : f.step q = 2 ^ (k + 1 - f.precision) := by rw [step, hk]
  rw [hs] at hm ⊢
  generalize hj : k + 1 - f.precision = j at hm ⊢
  by_cases hlt : m * 2 ^ j < 2 ^ (k + 1)
  · have := f.step_dvd_of_lt hlt
    rw [hj] at this
    exact Nat.dvd_trans this (Nat.dvd_mul_left _ _)
  · have hle : m * 2 ^ j ≤ 2 ^ (k + 1) := by
      have h1 : q / 2 ^ j + 1 ≤ 2 ^ (k + 1 - j) := by
        have : q / 2 ^ j < 2 ^ (k + 1 - j) := by
          rw [Nat.div_lt_iff_lt_mul (Nat.two_pow_pos j), ← Nat.pow_add]
          rwa [show k + 1 - j + j = k + 1 by omega]
        omega
      calc m * 2 ^ j ≤ 2 ^ (k + 1 - j) * 2 ^ j := Nat.mul_le_mul_right _ (by omega)
        _ = 2 ^ (k + 1) := by rw [← Nat.pow_add, show k + 1 - j + j = k + 1 by omega]
    have he : m * 2 ^ j = 2 ^ (k + 1) := by omega
    rw [he]
    unfold step
    rw [Nat.log2_two_pow]
    exact Nat.pow_dvd_pow 2 (by omega)

end Format

/-- A number of the format: not a number, an infinity, or a signed count of units. -/
inductive Binary (f : Format) where
  | nan
  | infinite (neg : Bool)
  | finite (neg : Bool) (units : Nat) (fits : f.Fits units)
  deriving DecidableEq

/-- The numbers of an avatar description. -/
abbrev Single := Binary .single

/-- The numbers a text is read through. -/
abbrev Double := Binary .double

/-- An integer from a sign and a magnitude. -/
def signed (neg : Bool) (u : Nat) : Int := if neg then -(u : Int) else u

namespace Binary

variable {f : Format}

/-- Zero with a sign. -/
def zero (neg : Bool) : Binary f :=
  .finite neg 0 ⟨Nat.two_pow_pos _, Nat.dvd_zero _⟩

instance : Inhabited (Binary f) := ⟨zero false⟩

/-- `num / den` units with a sign, rounded once; beyond the range it is infinite. -/
def ofRatio (neg : Bool) (num den : Nat) : Binary f :=
  let u := f.roundUnits num den
  if h : u < 2 ^ f.top then .finite neg u ⟨h, f.step_dvd_roundUnits num den⟩ else .infinite neg

/-- The nearest number to an integer. -/
def ofInt (i : Int) : Binary f := ofRatio (i < 0) (i.natAbs * 2 ^ f.scale) 1

instance (n : Nat) : OfNat (Binary f) n := ⟨ofInt n⟩

/-- The exact value in units, an infinity standing at the open end of the range. -/
def units? : Binary f → Option Int
  | .nan => none
  | .infinite neg => some (signed neg (2 ^ f.top))
  | .finite neg u _ => some (signed neg u)

/-- `x < y`; false when either is not a number. -/
def lt (x y : Binary f) : Bool :=
  match x.units?, y.units? with
  | some a, some b => a < b
  | _, _ => false

/-- Equal as numbers: zeros of both signs agree, and not-a-number differs from itself. -/
def eqv (x y : Binary f) : Bool :=
  match x.units?, y.units? with
  | some a, some b => a == b
  | _, _ => false

theorem lt_iff {x y : Binary f} :
    x.lt y = true ↔ ∃ a b, x.units? = some a ∧ y.units? = some b ∧ a < b := by
  unfold lt; cases x.units? <;> cases y.units? <;> simp

theorem eqv_iff {x y : Binary f} :
    x.eqv y = true ↔ ∃ a, x.units? = some a ∧ y.units? = some a := by
  unfold eqv
  cases x.units? <;> cases y.units? <;> simp only [reduceCtorEq, false_and, and_false,
    exists_false, Option.some.injEq, exists_eq_left', beq_iff_eq]
  exact eq_comm

/-- Zero of either sign. -/
def isZero (x : Binary f) : Bool := x.units? == some 0

/-- The larger of two numbers, and the number when the other is not one. -/
def max (x y : Binary f) : Binary f :=
  match x, y with
  | .nan, y => y
  | x, .nan => x
  | x, y => if x.lt y then y else x

/-- The other sign. -/
def neg : Binary f → Binary f
  | .nan => .nan
  | .infinite s => .infinite (!s)
  | .finite s u h => .finite (!s) u h

/-- The sum, rounded once; opposite numbers give a positive zero. -/
def add : Binary f → Binary f → Binary f
  | .finite a u _, .finite b v _ =>
    let s := signed a u + signed b v
    if s = 0 then zero (a && b) else ofRatio (s < 0) s.natAbs 1
  | .infinite a, .infinite b => if a = b then .infinite a else .nan
  | .infinite a, .finite .. => .infinite a
  | .finite .., .infinite b => .infinite b
  | .nan, _ | _, .nan => .nan

/-- The difference, rounded once. -/
def sub (x y : Binary f) : Binary f := x.add y.neg

/-- The product, rounded once. -/
def mul : Binary f → Binary f → Binary f
  | .finite a u _, .finite b v _ => ofRatio (a ^^ b) (u * v) (2 ^ f.scale)
  | .infinite a, .infinite b => .infinite (a ^^ b)
  | .infinite a, .finite b v _ => if v = 0 then .nan else .infinite (a ^^ b)
  | .finite a u _, .infinite b => if u = 0 then .nan else .infinite (a ^^ b)
  | .nan, _ | _, .nan => .nan

/-- The quotient, rounded once. -/
def div : Binary f → Binary f → Binary f
  | .finite a u _, .finite b v _ =>
    if v = 0 then (if u = 0 then .nan else .infinite (a ^^ b))
    else ofRatio (a ^^ b) (u * 2 ^ f.scale) v
  | .infinite _, .infinite _ => .nan
  | .infinite a, .finite b _ _ => .infinite (a ^^ b)
  | .finite a _ _, .infinite b => zero (a ^^ b)
  | .nan, _ | _, .nan => .nan

instance : Add (Binary f) := ⟨add⟩
instance : Sub (Binary f) := ⟨sub⟩
instance : Mul (Binary f) := ⟨mul⟩
instance : Div (Binary f) := ⟨div⟩
instance : Neg (Binary f) := ⟨neg⟩

/-- The nearest number of a coarser format. -/
def round (g : Format) : Binary f → Binary g
  | .nan => .nan
  | .infinite s => .infinite s
  | .finite s u _ => ofRatio s (u * 2 ^ g.scale) (2 ^ f.scale)

end Binary

/-! ## Whole numbers of four bytes -/

/-- Least whole number of four bytes. -/
def wordMin : Int := -2147483648

/-- Greatest whole number of four bytes. -/
def wordMax : Int := 2147483647

/-- The nearest whole number of four bytes. -/
def clampWord (i : Int) : Int := if i < wordMin then wordMin else if wordMax < i then wordMax else i

/-- The whole part, toward zero, held within four bytes; not-a-number gives zero. -/
def Binary.truncate {f : Format} (x : Binary f) : Int :=
  match x.units? with
  | none => 0
  | some a => clampWord (a.tdiv (2 ^ f.scale))

end AvatarBits
