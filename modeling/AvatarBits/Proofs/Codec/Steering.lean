import AvatarBits.Proofs.Codec.Grafting
import AvatarBits.Proofs.Codec.Names
import AvatarBits.Proofs.Number.Whole
import AvatarBits.Proofs.Simulation.Firing

/-!
# What steers a tree

A tree in a layer looks at one number only: the integer parameter on the way to
the bits, the number that the bits spell on the way back. `Codec.Reads` says what
that number is, and the next transition is a function of it and of the place.

The two halves differ in what they ask of a place before going down to it. The
encode tree asks for the whole span; the decode tree asks for the place's own
digit and leaves those above it to the transitions back (`Role.Aims`).

Results:
* `Codec.enter_holds`, `Codec.leave_holds`: what the conditions of an edge come to.
* `Layer.Hosts.next?_step`, `Layer.Hosts.next?_eq`: the next transition, as a step between places.
* `Layer.Hosts.enter_eq`: what entering a place writes.
-/
namespace AvatarBits

/-! Powers are those of the core library here, whatever else is imported. -/
attribute [local instance (2000)] instPowNat

/-! ## Numbers and places -/

/-- A number lies in the span of a place. -/
def Place.Covers (p : Place) (x : Int) : Prop := x / (p.span : Int) = p.index

instance (p : Place) (x : Int) : Decidable (p.Covers x) := inferInstanceAs (Decidable (_ = _))

theorem Place.covers_iff (p : Place) (x : Int) :
    p.Covers x ↔ (p.lo : Int) ≤ x ∧ x ≤ (p.hi : Int) := by
  have hs := p.span_pos
  have hh : (p.hi : Int) = p.lo + p.span - 1 := by unfold hi; omega
  unfold Covers
  rw [hh, lo, Int.natCast_mul]
  constructor
  · intro h
    have h1 := Int.emod_add_mul_ediv x p.span
    have h2 := Int.emod_nonneg x (b := p.span) (by omega)
    have h3 := Int.emod_lt_of_pos x (b := p.span) (by omega)
    rw [h, Int.mul_comm] at h1
    omega
  · rintro ⟨h1, h2⟩
    refine Int.le_antisymm (Int.le_of_lt_add_one ?_) ?_
    · rw [Int.ediv_lt_iff_lt_mul (by omega), Int.add_mul, Int.one_mul]
      omega
    · rw [Int.le_ediv_iff_mul_le (by omega)]
      exact h1

/-- A tree in a role goes down to a place for a number: the encode tree if the span holds it, the
decode tree if the place's digit is the number's. -/
def Role.Aims : Role → Int → Place → Prop
  | .encode, x, q => q.Covers x
  | .decode, x, q => x / (q.span : Int) % radix = q.index % radix

instance : (role : Role) → (x : Int) → (q : Place) → Decidable (role.Aims x q)
  | .encode, x, q => inferInstanceAs (Decidable (q.Covers x))
  | .decode, _, _ => inferInstanceAs (Decidable (_ = _))

namespace Codec

/-! ## Reading a store -/

/-- The bits are there and spell a number. -/
def Spells (c : Codec) (s : Store) (b : Nat) : Prop :=
  ∀ k, k < c.width → s.get? (bitName c.parameter k) = some (.bool (b.testBit k))

/-- The number that steers a tree. -/
def Reads (c : Codec) : Role → Store → Int → Prop
  | .encode, s, x => s.get? c.parameter = some (.int x)
  | .decode, s, x => ∃ b : Nat, x = b ∧ b < 2 ^ c.width ∧ c.Spells s b

/-! ## Conditions -/

section
variable {c : Codec} {s : Store}

theorem holds_value {x t : Int} (hs : s.get? c.parameter = some (.int x))
    (ht : t.natAbs < 16777216) :
    ((c.value .equals t).holds s = decide (x = t))
      ∧ ((c.value .notEqual t).holds s = decide (x ≠ t))
      ∧ ((c.value .less t).holds s = decide (x < t))
      ∧ ((c.value .greater t).holds s = decide (t < x)) := by
  simp only [value, Condition.holds, hs, ConditionMode.test, ParamValue.toSingle,
    Binary.eqv_ofInt ht, Binary.ofInt_lt ht, Binary.lt_ofInt ht, decide_not, and_self]

@[simp] theorem isZero_bool (b : Bool) : (ParamValue.bool b).toSingle.isZero = !b := by
  have h := Binary.isZero_ofInt (t := (b.toNat : Int)) (by cases b <;> decide)
  rw [ParamValue.toSingle, h]
  cases b <;> rfl

theorem holds_bitIs {k : Nat} {v : Bool} (hs : s.get? (bitName c.parameter k) = some (.bool v))
    (set : Bool) : (c.bitIs k set).holds s = (v == set) := by
  cases set <;>
    simp only [bitIs, Condition.holds, hs, ConditionMode.test, isZero_bool, if_true,
      Bool.false_eq_true, if_false] <;> cases v <;> rfl

end

theorem hi_lt (c : Codec) {q : Place} (hq : c.Has q) (hl : q.level < c.depth) : q.hi < 256 := by
  have h1 : q.span ≤ radix ^ 3 :=
    Nat.pow_le_pow_right (by decide) (by have := c.depth_le; omega)
  have h2 := hq.2
  have h3 := c.bound_le
  simp only [radix, maxBound] at h1 h3
  unfold Place.hi
  omega

theorem mod_four_eq_iff (m n : Nat) :
    m % 4 = n % 4 ↔ m.testBit 0 = n.testBit 0 ∧ m.testBit 1 = n.testBit 1 := by
  simp only [Nat.testBit_succ, Nat.testBit_zero, decide_eq_decide]
  omega

theorem span_eq (q : Place) : q.span = 2 ^ (2 * q.level) := by
  rw [Place.span, show radix = 2 ^ 2 from rfl, ← Nat.pow_mul]

theorem testBit_div_span (n : Nat) (q : Place) (k : Nat) :
    (n / q.span).testBit k = n.testBit (2 * q.level + k) := by
  simp [span_eq, Nat.testBit_div_two_pow, Nat.add_comm]

theorem lo_div_span (q : Place) : q.lo / q.span = q.index :=
  Nat.mul_div_cancel _ q.span_pos

theorem testBit_lo (q : Place) (k : Nat) : q.lo.testBit (2 * q.level + k) = q.index.testBit k := by
  simp [← testBit_div_span, lo_div_span]

theorem lo_lt (c : Codec) {q : Place} (hq : c.Has q) : q.lo < 2 ^ c.width :=
  Nat.lt_of_le_of_lt hq.2 c.bound_lt_two_pow_width

/-- Numbers of at most as many bits as there are have none beyond. -/
theorem testBit_beyond (c : Codec) {n k : Nat} (hn : n < 2 ^ c.width) (hk : c.width ≤ k) :
    n.testBit k = false :=
  Nat.testBit_lt_two_pow (Nat.lt_of_lt_of_le hn (Nat.pow_le_pow_right (by decide) hk))

theorem covers_natCast (q : Place) (n : Nat) : q.Covers n ↔ n / q.span = q.index := by
  unfold Place.Covers
  omega

/-- A leaf covers its own index only. -/
theorem lo_hi_of_leaf {q : Place} (h : q.level = 0) : q.lo = q.index ∧ q.hi = q.index := by
  simp only [Place.hi, Place.lo, Place.span, h, Nat.pow_zero]
  omega

/-- Numbers have the same digits from a level on exactly if they have the same bits from there
on. -/
theorem div_span_eq_iff (c : Codec) {q : Place} {b n : Nat} (hb : b < 2 ^ c.width)
    (hn : n < 2 ^ c.width) : b / q.span = n / q.span
      ↔ ∀ k, 2 * q.level ≤ k → k < c.width → b.testBit k = n.testBit k := by
  constructor
  · intro h k hk _
    have hbit := congrArg (·.testBit (k - 2 * q.level)) h
    simp only [testBit_div_span] at hbit
    rwa [show 2 * q.level + (k - 2 * q.level) = k by omega] at hbit
  · intro h
    apply Nat.eq_of_testBit_eq
    intro k
    rw [testBit_div_span, testBit_div_span]
    by_cases hk : 2 * q.level + k < c.width
    · exact h _ (Nat.le_add_right _ _) hk
    · simp [c.testBit_beyond hb (Nat.le_of_not_lt hk), c.testBit_beyond hn (Nat.le_of_not_lt hk)]

theorem aims_natCast (b : Nat) (q : Place) :
    Role.Aims .decode b q ↔ b / q.span % radix = q.index % radix := by
  unfold Role.Aims radix
  omega

section
variable {c : Codec} {s : Store} {x : Int} {q : Place}

/-- The conditions of the edge down to a place say that the tree aims for it. -/
theorem enter_holds {role : Role} (hr : c.Reads role s x) (hq : c.Has q) (hl : q.level < c.depth) :
    (c.enter role q).all (·.holds s) = true ↔ role.Aims x q := by
  have hlh := q.lo_le_hi
  have hh := c.hi_lt hq hl
  cases role with
  | encode =>
    have hs : s.get? c.parameter = some (.int x) := hr
    show _ ↔ q.Covers x
    rw [Place.covers_iff]
    by_cases h0 : q.level = 0
    · have h1 := lo_hi_of_leaf h0
      simp only [enter, if_pos h0, List.all_cons, List.all_nil, Bool.and_true, decide_eq_true_eq,
        (holds_value hs (t := q.index) (by omega)).1, h1]
      omega
    · simp only [enter, if_neg h0, List.all_cons, List.all_nil, Bool.and_true, Bool.and_eq_true,
        decide_eq_true_eq, (holds_value hs (t := (q.lo : Int) - 1) (by omega)).2.2.2,
        (holds_value hs (t := (q.hi : Int) + 1) (by omega)).2.2.1]
      omega
  | decode =>
    obtain ⟨b, rfl, hb, hs⟩ := hr
    have hw := c.two_mul_level_lt_width hl
    rw [aims_natCast, radix, mod_four_eq_iff, testBit_div_span, testBit_div_span, ← testBit_lo,
      ← testBit_lo]
    by_cases h1 : 2 * q.level + 1 < c.width
    · simp only [enter, if_pos h1, List.all_cons, List.all_nil, Bool.and_true, Bool.and_eq_true,
        holds_bitIs (hs _ hw), holds_bitIs (hs _ h1), beq_iff_eq, ← testBit_lo, Nat.add_zero]
    · -- an odd width ends in the middle of the top digit
      simp only [enter, if_neg h1, List.all_cons, List.all_nil, Bool.and_true,
        holds_bitIs (hs _ hw), beq_iff_eq, ← testBit_lo, Nat.add_zero,
        c.testBit_beyond hb (Nat.le_of_not_lt h1),
        c.testBit_beyond (c.lo_lt hq) (Nat.le_of_not_lt h1), and_true]

/-- One of the conditions of the edges back holds when the number is outside the span. -/
theorem leave_holds {role : Role} (hr : c.Reads role s x) (hq : c.Has q) (hl : q.level < c.depth) :
    (c.leave role q).any (·.holds s) = true ↔ ¬ q.Covers x := by
  have hlh := q.lo_le_hi
  have hh := c.hi_lt hq hl
  cases role with
  | encode =>
    have hs : s.get? c.parameter = some (.int x) := hr
    rw [Place.covers_iff]
    by_cases h0 : q.level = 0
    · have h1 := lo_hi_of_leaf h0
      simp only [leave, if_pos h0, List.any_cons, List.any_nil, Bool.or_false, decide_eq_true_eq,
        (holds_value hs (t := q.index) (by omega)).2.1, h1]
      omega
    · simp only [leave, if_neg h0, List.any_cons, List.any_nil, Bool.or_false, Bool.or_eq_true,
        decide_eq_true_eq, (holds_value hs (t := (q.lo : Int)) (by omega)).2.2.1,
        (holds_value hs (t := (q.hi : Int)) (by omega)).2.2.2]
      omega
  | decode =>
    obtain ⟨b, rfl, hb, hs⟩ := hr
    rw [covers_natCast, ← lo_div_span, c.div_span_eq_iff hb (c.lo_lt hq)]
    -- the edges back ask for the complements of the bits from the level on
    have hk : ∀ k, k < c.width →
        ((c.bitIs k (!q.lo.testBit k)).holds s = true ↔ b.testBit k ≠ q.lo.testBit k) := by
      intro k hk
      rw [holds_bitIs (hs k hk)]
      cases b.testBit k <;> cases q.lo.testBit k <;> simp
    simp only [leave, List.any_map, List.any_eq_true, List.mem_range'_1]
    constructor
    · rintro ⟨k, hm, hh⟩ hall
      exact (hk k (by omega)).1 hh (hall k hm.1 (by omega))
    · intro hne
      apply Classical.byContradiction
      intro hno
      apply hne
      intro k hlow hlt
      apply Classical.byContradiction
      intro hd
      exact hno ⟨k, by omega, (hk k hlt).2 hd⟩

end

/-! ## Steps between places -/

/-- Where a tree goes from a place for a number. -/
def next? (c : Codec) (role : Role) (x : Int) (p : Place) : Option Place :=
  ((c.children p).find? fun q => decide (role.Aims x q)).or
    (if p.level < c.depth ∧ ¬ p.Covers x then some c.root else none)

/-- Where a tree goes from a place for what a store holds, whatever that is: down to the first place
whose conditions all hold, else back to the root if one of the conditions for that holds. -/
def step? (c : Codec) (role : Role) (s : Store) (p : Place) : Option Place :=
  ((c.children p).find? fun q => (c.enter role q).all (·.holds s)).or
    (if p.level < c.depth ∧ (c.leave role p).any (·.holds s) then some c.root else none)

/-- What a leaf writes. -/
def leafWrites (c : Codec) : Role → (value : Nat) → List (String × Single)
  | .encode, v => (List.range c.width).map fun k =>
    (bitName c.parameter k, .ofInt (v.testBit k).toNat)
  | .decode, v => [(c.parameter, .ofInt v)]

/-- The store after entering a place. The encode tree writes on the wearer's own instance only. -/
def deposit (c : Codec) (role : Role) (s : Store) (p : Place) : Store :=
  if p.level = 0 ∧ (role = .encode → s.isSet isLocalName = true) then
    s.writeAll (c.leafWrites role p.index)
  else s

theorem leafActions_eq (c : Codec) (role : Role) (v : Nat) :
    c.leafActions role v = (c.leafWrites role v).map fun w => .set w.1 w.2 := by
  cases role <;>
    simp only [leafActions, leafWrites, List.map_map, Function.comp_def, List.map_cons,
      List.map_nil]

theorem level_lt_of_mem_children {c : Codec} {p q : Place} (hp : c.Has p) (hq : q ∈ c.children p) :
    q.level < c.depth := by
  have h1 := (mem_children.1 hq).1
  have h2 := hp.1
  omega

theorem has_of_mem_children {c : Codec} {p q : Place} (hp : c.Has p) (hq : q ∈ c.children p) :
    c.Has q :=
  ⟨Nat.le_of_lt (level_lt_of_mem_children hp hq), (mem_children.1 hq).2.2⟩

theorem has_of_next? {c : Codec} {role : Role} {x : Int} {p q : Place} (hp : c.Has p)
    (h : c.next? role x p = some q) : c.Has q := by
  rcases Option.or_eq_some_iff.1 h with h | ⟨-, h⟩
  · exact has_of_mem_children hp (List.mem_of_find?_eq_some h)
  · split at h
    · cases h
      exact c.has_root
    · cases h

/-- A store that holds a number to read leads where the number does. -/
theorem step?_eq {c : Codec} {role : Role} {s : Store} {x : Int} (hr : c.Reads role s x) {p : Place}
    (hp : c.Has p) : c.step? role s p = c.next? role x p := by
  have hf : ∀ q ∈ c.children p,
      (c.enter role q).all (·.holds s) = decide (role.Aims x q) := fun q hq =>
    Bool.eq_iff_iff.2 ((enter_holds hr (has_of_mem_children hp hq)
      (level_lt_of_mem_children hp hq)).trans decide_eq_true_iff.symm)
  have he : (c.children p).find? (fun q => (c.enter role q).all (·.holds s))
      = (c.children p).find? fun q => decide (role.Aims x q) := by
    rw [← List.head?_filter, List.filter_congr hf, List.head?_filter]
  have hb : (p.level < c.depth ∧ (c.leave role p).any (·.holds s) = true)
      ↔ p.level < c.depth ∧ ¬ p.Covers x :=
    and_congr_right fun hl => leave_holds hr hp hl
  simp only [step?, next?, he, hb]

@[simp] theorem address_root (c : Codec) (role : Role) (base : Nat) :
    c.address role base c.root = Scaffold.rootOf role :=
  if_neg (Nat.lt_irrefl _)

end Codec

namespace Layer.Hosts

variable {l : Layer} {c : Codec} {role : Role} {base : Nat} (h : l.Hosts c role base)
include h

/-- The next transition at a place is a function of what is stored. -/
theorem next?_step {p : Place} (hp : c.Has p) {i : Instance}
    (hi : i.current = c.address role base p) :
    (Machine.ofLayer l).next? i = (c.step? role i.store p).map (c.address role base) := by
  have hlt := (List.getElem?_eq_some_iff.1 (h.state_at p hp)).1
  rw [Machine.next?_eq, hi, if_pos hlt, h.edges_at p hp]
  unfold transitionsOf Codec.edgesAt Codec.step?
  rw [List.find?_map, List.find?_append, List.find?_map, Option.map_or, Option.map_or,
    Option.map_or, Option.map_map, Option.map_map, Option.map_map]
  congr 1
  · -- downward
    show Option.map _ ((c.children p).find? fun q => (c.enter role q).all (·.holds i.store)) = _
    apply Option.map_congr
    intro q hq
    exact (if_pos (Codec.level_lt_of_mem_children hp (List.mem_of_find?_eq_some hq))).symm
  · -- back
    by_cases hl : p.level < c.depth
    · have hb : (fun k : Condition => [k].all (·.holds i.store)) = (·.holds i.store) :=
        funext fun k => Bool.and_true _
      rw [if_pos hl, Codec.exits, List.find?_map, Option.map_map]
      show Option.map _ ((c.leave role p).find? fun k => [k].all (·.holds i.store)) = _
      rw [hb]
      cases hk : (c.leave role p).find? (·.holds i.store) with
      | none =>
        rw [if_neg fun hc => ?_]
        · rfl
        · obtain ⟨k, hm, hh⟩ := List.any_eq_true.1 hc.2
          exact List.find?_eq_none.1 hk k hm hh
      | some k =>
        have hh := List.find?_some (p := fun k : Condition => k.holds i.store) hk
        rw [if_pos ⟨hl, List.any_eq_true.2 ⟨k, List.mem_of_find?_eq_some hk, hh⟩⟩]
        exact congrArg some (c.address_root role base).symm
    · rw [if_neg hl, if_neg fun hc => hl hc.1]
      rfl

/-- The next transition at a place is a function of the number that is read. -/
theorem next?_eq {p : Place} (hp : c.Has p) {i : Instance} (hi : i.current = c.address role base p)
    {x : Int} (hr : c.Reads role i.store x) :
    (Machine.ofLayer l).next? i = (c.next? role x p).map (c.address role base) := by
  rw [h.next?_step hp hi, Codec.step?_eq hr hp]

/-- Entering a place moves there and leaves what the place writes. -/
theorem enter_eq {p : Place} (hp : c.Has p) (i : Instance) :
    (Machine.ofLayer l).enter (c.address role base p) i
      = ({ i with current := c.address role base p, store := c.deposit role i.store p }, none) := by
  have hs := h.state_at p hp
  unfold Codec.deposit
  by_cases h0 : p.level = 0
  · have hd := c.depth_pos
    rw [Codec.stateAt, if_pos (by omega), if_pos h0, c.leafActions_eq] at hs
    rw [Machine.enter_of_state hs rfl]
    cases role with
    | encode =>
      cases i.store.isSet isLocalName <;> simp [h0]
    | decode => simp [h0]
  · rw [if_neg fun hc => h0 hc.1]
    refine Machine.enter_silent hs ?_ i
    simp only [Codec.stateAt, h0, if_false]
    split <;> rfl

end Layer.Hosts

end AvatarBits
