import AvatarBits.Proofs.Codec.Branches

/-!
# Runs that settle

What a tree reads need not be there, and need not be what it expects: bits may be
missing, and each may hold a value of any kind. The decode tree settles all the
same. Going down to a place leaves it open whether an edge back is enabled: the
digit of the place has just been tested, and what is above it was there before
(`Codec.Coherent`). So a tree goes down from where it stands, back to the root at
most once, since no edge leads back from there, and down again.

The encode tree compares a number with whole ones on both sides of an end of a
span: it goes down to a place if the number is beyond the one outside, and back
if it is short of the one inside. It is coherent unless the number is between
the two (`Codec.OnBrink`), where no integer is.

Results:
* `Codec.coherent_of_not_onBrink`, `Codec.coherent_decode`: trees are coherent.
* `Codec.exists_strides`: the whole way from a place, in at most twice as many steps as the tree has
  levels.
* `Layer.Hosts.run_place`, `Layer.Hosts.run_dispatch`: runs of a layer that hosts a tree.
* `Layer.Ready.run_root`, `Layer.Ready.run_dispatch`: runs of a layer without the tree.
-/
namespace AvatarBits

/-! Powers are those of the core library here, whatever else is imported. -/
attribute [local instance (2000)] instPowNat

namespace Place

/-- A number lies in a span or between whole numbers of it. -/
def Within (p : Place) (x : Single) : Prop :=
  ∃ a, x.units? = some a ∧ p.lo * Binary.unit .single ≤ a ∧ a ≤ p.hi * Binary.unit .single

/-- A number lies between an end of a span and the whole number next to it outside. -/
def Brink (p : Place) (x : Single) : Prop :=
  ((Binary.ofInt ((p.lo : Int) - 1)).lt x = true ∧ x.lt (.ofInt p.lo) = true)
    ∨ ((Binary.ofInt p.hi).lt x = true ∧ x.lt (.ofInt ((p.hi : Int) + 1)) = true)

/-- What lies in the span of a place lies in that of the place above. -/
theorem Within.mono {c : Codec} {p q : Place} {x : Single} (h : q.Within x)
    (hq : q ∈ c.children p) : p.Within x := by
  obtain ⟨a, ha, hlow, hhigh⟩ := h
  have hlh := q.lo_le_hi
  have hlo := (covers_iff p _).1 (Codec.covers_of_child hq ((covers_iff q q.lo).2 (by omega)))
  have hhi := (covers_iff p _).1 (Codec.covers_of_child hq ((covers_iff q q.hi).2 (by omega)))
  have hK := Int.le_of_lt (Binary.unit_pos (f := .single))
  exact ⟨a, ha, Int.le_trans (Int.mul_le_mul_of_nonneg_right hlo.1 hK) hlow,
    Int.le_trans hhigh (Int.mul_le_mul_of_nonneg_right hhi.2 hK)⟩

end Place

namespace Codec

/-! ## Coherence -/

/-- What the parameter holds is on the brink of an inner node of the encode tree. -/
def OnBrink (c : Codec) (s : Store) : Prop :=
  ∃ v p, s.get? c.parameter = some v ∧ c.Has p ∧ 0 < p.level ∧ p.level < c.depth
    ∧ p.Brink v.toSingle

/-- An edge back to the root is enabled. -/
def Leaves (c : Codec) (role : Role) (s : Store) (p : Place) : Prop :=
  p.level < c.depth ∧ (c.leave role p).any (·.holds s) = true

instance (c : Codec) (role : Role) (s : Store) (p : Place) : Decidable (c.Leaves role s p) :=
  inferInstanceAs (Decidable (_ ∧ _))

/-- Going down makes no difference to whether a tree goes back. -/
def Coherent (c : Codec) (role : Role) (s : Store) : Prop :=
  ∀ p q, c.Has p → q ∈ c.children p → (c.enter role q).all (·.holds s) = true →
    (c.Leaves role s q ↔ c.Leaves role s p)

variable {c : Codec} {role : Role} {s : Store}

theorem not_leaves_root (c : Codec) (role : Role) (s : Store) : ¬ c.Leaves role s c.root :=
  fun h => Nat.lt_irrefl _ h.1

/-- Without an integer the encode tree goes nowhere. -/
theorem not_enter_of_absent (hs : s.get? c.parameter = none) (q : Place) :
    (c.enter .encode q).all (·.holds s) = false := by
  have hk : ∀ mode t, (c.value mode t).holds s = false := by
    intro mode t
    simp [Condition.holds, value, hs]
  unfold enter
  dsimp only
  split <;> simp [hk]

/-- What the edge down to a place of the encode tree asks of a number. -/
theorem enter_encode_iff {v : ParamValue} (hv : s.get? c.parameter = some v) (q : Place) :
    (c.enter .encode q).all (·.holds s) = true ↔
      if q.level = 0 then v.toSingle.eqv (.ofInt q.index) = true
      else (Binary.ofInt ((q.lo : Int) - 1)).lt v.toSingle = true
        ∧ v.toSingle.lt (.ofInt ((q.hi : Int) + 1)) = true := by
  unfold enter
  dsimp only
  split <;> simp [Condition.holds, value, hv, ConditionMode.test]

/-- What the edges back from a place of the encode tree ask of a number. -/
theorem leave_encode_iff {v : ParamValue} (hv : s.get? c.parameter = some v) (q : Place) :
    (c.leave .encode q).any (·.holds s) = true ↔
      if q.level = 0 then v.toSingle.eqv (.ofInt q.index) = false
      else v.toSingle.lt (.ofInt q.lo) = true ∨ (Binary.ofInt q.hi).lt v.toSingle = true := by
  unfold leave
  dsimp only
  split <;> simp [Condition.holds, value, hv, ConditionMode.test]

/-- Units of the whole numbers that the encode tree compares with. -/
theorem units_threshold {t : Int} (h : -1 ≤ t) (h' : t ≤ 256) :
    (Binary.ofInt t : Single).units? = some (t * Binary.unit .single) :=
  Binary.units_ofInt_small Binary.single_room (Binary.single_fits (by omega))

/-- A number on no brink lies in the span of a place that the encode tree goes down to. -/
theorem within_of_enter (hs : ¬ c.OnBrink s) {v : ParamValue} (hv : s.get? c.parameter = some v)
    {q : Place} (hq : c.Has q) (hl : q.level < c.depth)
    (he : (c.enter .encode q).all (·.holds s) = true) : q.Within v.toSingle := by
  have hlh := q.lo_le_hi
  have hhi := c.hi_lt hq hl
  rw [enter_encode_iff hv] at he
  by_cases h0 : q.level = 0
  · rw [if_pos h0, Binary.eqv_iff] at he
    obtain ⟨a, ha, hb⟩ := he
    rw [units_threshold (by omega) (by have := lo_hi_of_leaf h0; omega)] at hb
    obtain rfl := Option.some.inj hb
    obtain ⟨h1, h2⟩ := lo_hi_of_leaf h0
    exact ⟨_, ha, by rw [h1], by rw [h2]⟩
  · rw [if_neg h0, Binary.lt_iff, Binary.lt_iff] at he
    obtain ⟨⟨k, a, hk, ha, hlow⟩, a', k', ha', hk', hhigh⟩ := he
    obtain rfl := Option.some.inj (ha.symm.trans ha')
    refine ⟨a, ha, Int.not_lt.1 fun h => hs ?_, Int.not_lt.1 fun h => hs ?_⟩
    · exact ⟨v, q, hv, hq, by omega, hl, Or.inl ⟨Binary.lt_iff.2 ⟨k, a, hk, ha, hlow⟩,
        Binary.lt_iff.2 ⟨a, _, ha, units_threshold (by omega) (by omega), h⟩⟩⟩
    · exact ⟨v, q, hv, hq, by omega, hl, Or.inr ⟨Binary.lt_iff.2
        ⟨_, a, units_threshold (by omega) (by omega), ha, h⟩,
        Binary.lt_iff.2 ⟨a, k', ha, hk', hhigh⟩⟩⟩

/-- Nothing leads back from a place whose span holds the number. -/
theorem not_leave_of_within {v : ParamValue} (hv : s.get? c.parameter = some v) {q : Place}
    (hq : c.Has q) (hl : q.level < c.depth) (h : q.Within v.toSingle) :
    ¬ (c.leave .encode q).any (·.holds s) = true := by
  have hlh := q.lo_le_hi
  have hhi := c.hi_lt hq hl
  obtain ⟨a, ha, hlow, hhigh⟩ := h
  have hlo : (Binary.ofInt q.lo : Single).units? = some (q.lo * Binary.unit .single) :=
    units_threshold (by omega) (by omega)
  have hhi' : (Binary.ofInt q.hi : Single).units? = some (q.hi * Binary.unit .single) :=
    units_threshold (by omega) (by omega)
  rw [leave_encode_iff hv]
  by_cases h0 : q.level = 0
  · obtain ⟨h1, h2⟩ := lo_hi_of_leaf h0
    rw [h1] at hlo hlow
    rw [h2] at hhigh
    rw [if_pos h0, Binary.eqv_of_units ha hlo, decide_eq_false_iff_not]
    exact fun hne => hne (Int.le_antisymm hhigh hlow)
  · rw [if_neg h0, Binary.lt_of_units ha hlo, Binary.lt_of_units hhi' ha, decide_eq_true_iff,
      decide_eq_true_iff]
    omega

/-- The encode tree is coherent unless the number that it looks at is on a brink. -/
theorem coherent_of_not_onBrink (hs : ¬ c.OnBrink s) : c.Coherent .encode s := by
  intro p q hp hq he
  cases hv : s.get? c.parameter with
  | none =>
    rw [not_enter_of_absent hv] at he
    cases he
  | some v =>
    have hlt := level_lt_of_mem_children hp hq
    have hw := within_of_enter hs hv (has_of_mem_children hp hq) hlt he
    -- a span that holds the number is not left, nor is one above it
    refine iff_of_false (fun hx => ?_) (fun hx => ?_)
    · exact not_leave_of_within hv (has_of_mem_children hp hq) hlt hw hx.2
    · exact not_leave_of_within hv hp hx.1 (hw.mono hq) hx.2

/-- Only a fractional number is on a brink. -/
theorem float_of_onBrink (h : c.OnBrink s) : ∃ x, s.get? c.parameter = some (.float x) := by
  obtain ⟨v, p, hv, hp, -, hl, h⟩ := h
  have hlh := p.lo_le_hi
  have hhi := c.hi_lt hp hl
  have hwhole : ∀ t : Int, ¬ p.Brink (.ofInt t) := by
    intro t ht
    simp only [Place.Brink, Binary.lt_ofInt (t := (p.lo : Int) - 1) (by omega),
      Binary.ofInt_lt (t := p.lo) (by omega), Binary.lt_ofInt (t := p.hi) (by omega),
      Binary.ofInt_lt (t := (p.hi : Int) + 1) (by omega), decide_eq_true_iff] at ht
    omega
  cases v with
  | bool b => exact absurd h (hwhole b.toNat)
  | int t => exact absurd h (hwhole t)
  | float x => exact ⟨x, hv⟩

theorem coherent_encode (hs : ∀ v, s.get? c.parameter = some v → ∃ x, v = .int x) :
    c.Coherent .encode s := by
  refine coherent_of_not_onBrink fun h => ?_
  obtain ⟨x, hx⟩ := float_of_onBrink h
  obtain ⟨t, ht⟩ := hs _ hx
  cases ht

/-- A bit that agrees with a digit does not differ from it. -/
theorem not_holds_bitIs {k : Nat} {b : Bool} (h : (c.bitIs k b).holds s = true) :
    (c.bitIs k (!b)).holds s = false := by
  unfold Condition.holds bitIs at *
  cases hg : s.get? (bitName c.parameter k) with
  | none => rfl
  | some v => cases b <;> simp_all [ConditionMode.test]

theorem leave_decode_iff (p : Place) : (c.leave .decode p).any (·.holds s) = true
    ↔ ∃ k, 2 * p.level ≤ k ∧ k < c.width ∧ (c.bitIs k (!p.lo.testBit k)).holds s = true := by
  simp only [leave, List.any_map, List.any_eq_true, List.mem_range'_1, Function.comp_def]
  constructor
  · rintro ⟨k, hk, hh⟩
    exact ⟨k, hk.1, by omega, hh⟩
  · rintro ⟨k, hl, hw, hh⟩
    exact ⟨k, ⟨hl, by omega⟩, hh⟩

/-- Above its own digit a place has the bits of the place above it. -/
theorem testBit_lo_of_child {p q : Place} (hq : q ∈ c.children p) {k : Nat} (hk : 2 * p.level ≤ k) :
    q.lo.testBit k = p.lo.testBit k := by
  obtain ⟨hl, hi, -⟩ := mem_children.1 hq
  obtain ⟨j, rfl⟩ := Nat.exists_eq_add_of_le hk
  have h4 : q.index.testBit (j + 2) = (q.index / radix).testBit j := by
    rw [show radix = 2 ^ 2 from rfl, Nat.testBit_div_two_pow]
  rw [testBit_lo, ← hi, ← h4, ← testBit_lo]
  congr 1
  omega

theorem width_le (c : Codec) : c.width ≤ 2 * c.depth := by
  have h := c.two_pow_width_le
  rw [show radix = 2 ^ 2 from rfl, ← Nat.pow_mul] at h
  exact (Nat.pow_le_pow_iff_right (by decide)).1 h

/-- The decode tree is coherent whatever the bits hold. -/
theorem coherent_decode (c : Codec) (s : Store) : c.Coherent .decode s := by
  intro p q hp hq he
  have hlt := level_lt_of_mem_children hp hq
  obtain ⟨hl, -, -⟩ := mem_children.1 hq
  have hdigit : ∀ k, 2 * q.level ≤ k → k < 2 * p.level → k < c.width →
      (c.bitIs k (!q.lo.testBit k)).holds s = false := by
    intro k hk hkp hkw
    rw [enter, List.all_cons, Bool.and_eq_true] at he
    obtain rfl | rfl : k = 2 * q.level ∨ k = 2 * q.level + 1 := by omega
    · refine not_holds_bitIs ?_
      rw [show q.lo.testBit (2 * q.level) = q.index.testBit 0 from testBit_lo q 0]
      exact he.1
    · refine not_holds_bitIs ?_
      rw [testBit_lo]
      simpa [hkw] using he.2
  have hp' : (c.leave .decode p).any (·.holds s) = true → p.level < c.depth := by
    intro h
    obtain ⟨k, hk, hw, -⟩ := (leave_decode_iff p).1 h
    have := c.width_le
    omega
  rw [Leaves, Leaves, and_iff_right hlt, and_iff_right_of_imp hp', leave_decode_iff,
    leave_decode_iff]
  constructor
  · rintro ⟨k, hk, hw, hh⟩
    have hkp : 2 * p.level ≤ k := Nat.le_of_not_lt fun hkp => by
      rw [hdigit k hk hkp hw] at hh
      cases hh
    exact ⟨k, hkp, hw, testBit_lo_of_child hq hkp ▸ hh⟩
  · rintro ⟨k, hk, hw, hh⟩
    exact ⟨k, by omega, hw, (testBit_lo_of_child hq hk).symm ▸ hh⟩

theorem coherent (hs : role = .encode → ∀ v, s.get? c.parameter = some v → ∃ x, v = .int x) :
    c.Coherent role s := by
  cases role with
  | encode => exact coherent_encode (hs rfl)
  | decode => exact c.coherent_decode s

/-! ## The whole way -/

theorem step?_of_enter {p q : Place}
    (h : (c.children p).find? (fun q => (c.enter role q).all (·.holds s)) = some q) :
    c.step? role s p = some q := by
  rw [step?, h]
  rfl

theorem step?_of_stuck {p : Place}
    (h : (c.children p).find? (fun q => (c.enter role q).all (·.holds s)) = none) :
    c.step? role s p = if c.Leaves role s p then some c.root else none := by
  rw [step?, h]
  rfl

/-- A tree goes down until it is stuck, and on the way it does not change its mind about going
back. -/
theorem exists_descent (h : c.Coherent role s) {p : Place} (hp : c.Has p) :
    ∃ ps q, c.Strides role s p ps q ∧ c.Has q ∧ ps.length ≤ p.level
      ∧ c.step? role s q = (if c.Leaves role s q then some c.root else none)
      ∧ (c.Leaves role s q ↔ c.Leaves role s p) := by
  induction hn : p.level using Nat.strongRecOn generalizing p with
  | _ n ih =>
    cases hf : (c.children p).find? (fun q => (c.enter role q).all (·.holds s)) with
    | none => exact ⟨[], p, .nil p, hp, Nat.zero_le _, step?_of_stuck hf, Iff.rfl⟩
    | some q =>
      have hq := List.mem_of_find?_eq_some hf
      have hall := List.find?_some (p := fun q => (c.enter role q).all (·.holds s)) hf
      have hl := (mem_children.1 hq).1
      obtain ⟨ps, r, hw, hr, hlen, hstep, hiff⟩ :=
        ih q.level (by omega) (has_of_mem_children hp hq) rfl
      refine ⟨q :: ps, r, .cons (step?_of_enter hf) hw, hr, ?_, hstep,
        hiff.trans (h p q hp hq hall)⟩
      rw [List.length_cons]
      omega

/-- **The whole way.** From every place a tree comes to rest. -/
theorem exists_strides (h : c.Coherent role s) {p : Place} (hp : c.Has p) :
    ∃ ps q, c.Strides role s p ps q ∧ c.Has q ∧ c.step? role s q = none
      ∧ ps.length ≤ 2 * c.depth := by
  obtain ⟨ps, q, hw, hq, hlen, hstep, hiff⟩ := exists_descent h hp
  have hl := hp.1
  by_cases hc : c.Leaves role s p
  · -- back to the root, where no edge leads back from
    obtain ⟨qs, r, hw', hr, hlen', hstep', hiff'⟩ := exists_descent h c.has_root
    rw [if_pos (hiff.2 hc)] at hstep
    rw [if_neg fun hx => c.not_leaves_root role s (hiff'.1 hx)] at hstep'
    refine ⟨ps ++ c.root :: qs, r, hw.append (.cons hstep hw'), hr, hstep', ?_⟩
    have := hc.1
    rw [root_level] at hlen'
    rw [List.length_append, List.length_cons]
    omega
  · rw [if_neg fun hx => hc (hiff.1 hx)] at hstep
    exact ⟨ps, q, hw, hq, hstep, by omega⟩

end Codec

/-! ## Runs -/

namespace Layer

variable {l : Layer} {i : Instance}

/-- A layer may fire more transitions than any way has. -/
theorem Begins.le_limit (h : l.Begins) : 14 ≤ (Machine.ofLayer l).limit := by
  have := h.length_ge
  simp only [Machine.limit, Machine.ofLayer, List.size_toArray]
  omega

/-- A layer that has not been told its side waits. -/
theorem Begins.run_waiting (h : l.Begins) (hi : i.current = Scaffold.entry)
    (hside : i.store.side? = none) :
    (Machine.ofLayer l).run i = ({ i with started := true }, .ok 0) := by
  have hn := h.next?_entry_eq (i := { i with started := true }) hi
  simp only [hside, Option.map_none] at hn
  rw [(h.run_eq fun _ => hi).1]
  simp [Machine.settle, hn]

namespace Hosts

variable {c : Codec} {role : Role} {base : Nat} (h : l.Hosts c role base) {p q : Place}
  {ps : List Place}
include h

theorem fires_to_rest (hw : c.Strides role i.store p ps q) (hp : c.Has p) (hq : c.Has q)
    (hend : c.step? role i.store q = none) (hi : i.current = c.address role base p) :
    (Machine.ofLayer l).Fires i (ps.map (c.address role base))
        { i with current := c.address role base q, store := ps.foldl (c.deposit role) i.store }
      ∧ (Machine.ofLayer l).next?
        { i with current := c.address role base q, store := ps.foldl (c.deposit role) i.store }
        = none := by
  refine ⟨h.fires_strides hw hp hi fun _ _ => rfl, ?_⟩
  rw [h.next?_step hq rfl, Codec.step?_congr (fun n hn => Codec.get?_foldl_deposit hn), hend]
  rfl

/-- A run from a place goes the whole way. -/
theorem run_place (hs : i.started = true) (hw : c.Strides role i.store p ps q) (hp : c.Has p)
    (hq : c.Has q) (hend : c.step? role i.store q = none) (hlen : ps.length ≤ 2 * c.depth)
    (hi : i.current = c.address role base p) :
    (Machine.ofLayer l).run i = ({ i with
        current := c.address role base q
        store := ps.foldl (c.deposit role) i.store }, .ok ps.length) := by
  obtain ⟨hf, hn⟩ := h.fires_to_rest hw hp hq hend hi
  have hd := c.depth_le
  have hlim := h.toBegins.le_limit
  have := (Machine.run_of_fires hs hf hn (by rw [List.length_map]; omega)).1
  rwa [List.length_map] at this

/-- The run on which a layer learns its side goes to the root and on from there. -/
theorem run_dispatch (hi : i.current = Scaffold.entry) (hside : i.store.side? = some role)
    (hw : c.Strides role i.store c.root ps q) (hq : c.Has q)
    (hend : c.step? role i.store q = none) (hlen : ps.length ≤ 2 * c.depth) :
    (Machine.ofLayer l).run i = ({
        current := c.address role base q
        started := true
        store := ps.foldl (c.deposit role) i.store }, .ok (1 + ps.length)) := by
  let i₁ : Instance := { i with current := Scaffold.rootOf role, started := true }
  have hroot : (Machine.ofLayer l).enter (Scaffold.rootOf role) { i with started := true }
      = (i₁, none) := by
    have := h.enter_eq c.has_root { i with started := true }
    rwa [Codec.deposit_root, Codec.address_root] at this
  have hn₀ := h.toBegins.next?_entry_eq (i := { i with started := true }) hi
  simp only [hside, Option.map_some] at hn₀
  obtain ⟨hf, hn⟩ := h.fires_to_rest (i := i₁) hw c.has_root hq hend (c.address_root role base).symm
  have hd := c.depth_le
  have hlim := h.toBegins.le_limit
  have hlong : (Scaffold.rootOf role :: ps.map (c.address role base)).length
      < (Machine.ofLayer l).limit + 1 := by
    rw [List.length_cons, List.length_map]
    omega
  have := (Machine.settle_of_fires (.cons hn₀ hroot hf) hn hlong 0).1
  rw [(h.toBegins.run_eq fun _ => hi).1, this, List.length_cons, List.length_map, Nat.zero_add,
    Nat.add_comm]

end Hosts

namespace Ready

variable {role : Role} (h : l.Ready role)
include h

theorem next?_root (hi : i.current = Scaffold.rootOf role) :
    (Machine.ofLayer l).next? i = none := by
  rw [Machine.next?_eq, hi, h.root_idle]
  split <;> rfl

/-- At a root with nothing below it a run does nothing. -/
theorem run_root (hs : i.started = true) (hi : i.current = Scaffold.rootOf role) :
    (Machine.ofLayer l).run i = (i, .ok 0) := by
  simp [Machine.run, hs, Machine.settle, h.next?_root hi]

/-- The run on which a layer learns its side goes to the root and stays there. -/
theorem run_dispatch (hi : i.current = Scaffold.entry) (hside : i.store.side? = some role) :
    (Machine.ofLayer l).run i
      = ({ i with current := Scaffold.rootOf role, started := true }, .ok 1) := by
  have hn := h.toBegins.next?_entry_eq (i := { i with started := true }) hi
  simp only [hside, Option.map_some] at hn
  have he := Machine.enter_silent h.root_at rfl { i with started := true }
  have hroot := h.next?_root
    (i := { i with current := Scaffold.rootOf role, started := true }) rfl
  have hlim := h.toBegins.le_limit
  rw [(h.toBegins.run_eq fun _ => hi).1]
  exact (Machine.settle_of_fires (.single hn he) hroot
    (by rw [List.length_singleton]; omega) 0).1

end Ready

end Layer

end AvatarBits
