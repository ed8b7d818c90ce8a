import AvatarBits.Avatar.Controller

/-!
# Parameters of a running layer

A store holds a value for each name that was ever written. A name keeps the kind
of its first value: writing a number to a boolean or an integer converts it.

Results:
* `Store.get?_set`: setting a name changes that name only.
* `Store.get?_write`: so does writing.
-/
namespace AvatarBits

/-- A parameter's value. -/
inductive ParamValue where
  | bool (b : Bool)
  | int (i : Int)
  | float (x : Single)
  deriving DecidableEq

namespace ParamValue

/-- The value as a number. -/
def toSingle : ParamValue → Single
  | .bool b => .ofInt b.toNat
  | .int i => .ofInt i
  | .float x => x

/-- The value of an integer. -/
def toInt? : ParamValue → Option Int
  | .int i => some i
  | _ => none

/-- Anything but zero is set. -/
def isSet (v : ParamValue) : Bool := !v.toSingle.isZero

/-- A number, converted to the kind of a value. -/
def withNumber : ParamValue → Single → ParamValue
  | .bool _, x => .bool (!x.isZero)
  | .int _, x => .int x.truncate
  | .float _, x => .float x

end ParamValue

/-- Values by name. -/
structure Store where
  slots : List (String × ParamValue) := []
  deriving DecidableEq

namespace Store

/-- Value of a name, if it was ever written. -/
def get? (s : Store) (name : String) : Option ParamValue := s.slots.lookup name

/-- Replace the first value of a name, or append one. -/
def put (name : String) (v : ParamValue) : List (String × ParamValue) → List (String × ParamValue)
  | [] => [(name, v)]
  | (n, w) :: rest => if n = name then (name, v) :: rest else (n, w) :: put name v rest

/-- Give a name a value of any kind. -/
def set (s : Store) (name : String) (v : ParamValue) : Store := ⟨put name v s.slots⟩

theorem lookup_cons_eq (n m : String) (w : ParamValue) (rest : List (String × ParamValue)) :
    ((m, w) :: rest).lookup n = if n = m then some w else rest.lookup n := by
  by_cases h : n = m
  · subst h; simp
  · have hb : (n == m) = false := beq_eq_false_iff_ne.2 h
    simp only [List.lookup_cons, hb, h, if_false]

theorem lookup_put (name n : String) (v : ParamValue) (slots : List (String × ParamValue)) :
    (put name v slots).lookup n = if n = name then some v else slots.lookup n := by
  induction slots with
  | nil => rw [put, lookup_cons_eq]
  | cons p rest ih =>
    obtain ⟨m, w⟩ := p
    by_cases hm : m = name
    · subst hm
      rw [put, if_pos rfl, lookup_cons_eq, lookup_cons_eq]
      by_cases hn : n = m <;> simp [hn]
    · rw [put, if_neg hm, lookup_cons_eq, lookup_cons_eq, ih]
      by_cases hn : n = m
      · subst hn; simp [hm]
      · simp [hn]

@[simp] theorem get?_set (s : Store) (name n : String) (v : ParamValue) :
    (s.set name v).get? n = if n = name then some v else s.get? n :=
  lookup_put name n v s.slots

/-- Value of a name as a number; zero if it was never written. -/
def number (s : Store) (name : String) : Single :=
  match s.get? name with
  | some v => v.toSingle
  | none => .zero false

/-- Whether a name is set. -/
def isSet (s : Store) (name : String) : Bool := (s.get? name).any ParamValue.isSet

/-- Write a number to a name, which keeps its kind; a new name becomes a number. -/
def write (s : Store) (name : String) (x : Single) : Store :=
  s.set name (((s.get? name).getD (.float x)).withNumber x)

theorem get?_write (s : Store) (name n : String) (x : Single) :
    (s.write name x).get? n
      = if n = name then some (((s.get? name).getD (.float x)).withNumber x) else s.get? n := by
  simp [write]

end Store

/-! ## Conditions -/

/-- Whether a number passes a test. -/
def ConditionMode.test : ConditionMode → (x threshold : Single) → Bool
  | .isSet, x, _ => !x.isZero
  | .notSet, x, _ => x.isZero
  | .greater, x, t => t.lt x
  | .less, x, t => x.lt t
  | .equals, x, t => x.eqv t
  | .notEqual, x, t => !x.eqv t

/-- Whether a condition holds; one on a name that was never written does not, whatever its mode. -/
def Condition.holds (c : Condition) (s : Store) : Bool :=
  match s.get? c.parameter with
  | none => false
  | some v => c.mode.test v.toSingle c.threshold

/-! ## Actions -/

/-- The linear map of one range onto another; a source range without extent maps nothing. -/
def RangeConversion.apply (r : RangeConversion) (x : Single) : Single :=
  if r.sourceMax.eqv r.sourceMin then x
  else r.destMin + (x - r.sourceMin) * (r.destMax - r.destMin) / (r.sourceMax - r.sourceMin)

/-- The store after an action; a random one has no single outcome. -/
def DriverAction.apply? (s : Store) : DriverAction → Option Store
  | .set name value => some (s.write name value)
  | .add name value => some (s.write name (s.number name + value))
  | .random .. => none
  | .copy name source convert range =>
    let x := s.number source
    some (s.write name (if convert then range.apply x else x))

end AvatarBits
