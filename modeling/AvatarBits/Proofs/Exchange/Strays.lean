import AvatarBits.Proofs.Exchange.Session

/-!
# Leaves entered on the way to another value

Bits may arrive in any portions, and the other instance runs after each. When the
bits spell a number beyond the bound, it parks at an inner node; when they then
change, the edges down from that node ask for the digits below it only and come
before the edges back, so the instance may go down to a leaf whose value the bits
do not spell, and write that value, before it goes back to the root. If the bits
still spell a number beyond the bound, the value stays.

`Codec.stray` is that leaf. It exists exactly when the instance is parked at an
inner node, the bits spell a number outside its span, and the digits of that
number below the node lead to a value within the bound.

Results:
* `Codec.received_at`: where the instance stands after any deliveries.
* `Codec.leaves_entered`: the leaves entered on the next one, and what is shown then.
* `Codec.stray_leaf_entered`: bits that spelled `17` and then `20`, with bound `16`.
-/
namespace AvatarBits

/-! Powers are those of the core library here, whatever else is imported. -/
attribute [local instance (2000)] instPowNat

/-- Names of the states that a run enters. -/
def Machine.enteredNames (m : Machine) (i : Instance) : List String :=
  (m.entered i).filterMap fun id => (m.layer.state? id).map LayerState.name

namespace Layer.Hosts

variable {l : Layer} {c : Codec} {role : Role} {base : Nat} (h : l.Hosts c role base)
include h

/-- The name of a place's state. -/
theorem name_at {p : Place} (hp : c.Has p) :
    ((Machine.ofLayer l).layer.state? (c.address role base p)).map LayerState.name
      = some (if p.level < c.depth then p.name role else Scaffold.rootName role) := by
  show (l.states[_]?).map _ = _
  rw [h.state_at p hp, Codec.stateAt]
  split <;> rfl

/-- A leaf is among the states that a run enters exactly if it is on the way. -/
theorem leaf_entered_iff {i : Instance} {p : Place} (hp : c.Has p)
    (hst : c.Stands role base i p) {x : Int} (hr : c.Reads role i.store x) (y : Nat) :
    Place.name role ⟨0, y⟩ ∈ (Machine.ofLayer l).enteredNames i
      ↔ Place.mk 0 y ∈ c.route role x p := by
  obtain ⟨n, -, -, he⟩ := h.run_eq hp hst hr
  have hhas := Codec.has_of_walks (Codec.walks_route hr.readable hp) hp
  have hentry : ((Machine.ofLayer l).layer.state? Scaffold.entry).map LayerState.name
      = some "entry" := by
    show (l.states[_]?).map _ = _
    rw [h.entry_at]
    rfl
  have hroot := h.name_at c.has_root
  simp only [Codec.address_root, Codec.root_level, Nat.lt_irrefl, if_false] at hroot
  rw [Machine.enteredNames, he, List.mem_filterMap]
  constructor
  · rintro ⟨id, hid, hname⟩
    rcases List.mem_append.1 hid with hid | hid
    · -- the two states before the way are not called like a leaf
      have hne : ∀ s : String, s = "entry" ∨ s = Scaffold.rootName role →
          some s ≠ some (Place.name role ⟨0, y⟩) := by
        intro s hs e
        refine Place.name_ne_scaffold _ _ s (hs.imp_right fun hs => ?_) (Option.some.inj e).symm
        cases role <;> simp [hs, Scaffold.rootName]
      split at hid
      · cases hid
      · rcases List.mem_cons.1 hid with rfl | hid
        · exact absurd (hentry.symm.trans hname) (hne _ (Or.inl rfl))
        · rw [List.mem_singleton.1 hid] at hname
          exact absurd (hroot.symm.trans hname) (hne _ (Or.inr rfl))
    · obtain ⟨q, hq, rfl⟩ := List.mem_map.1 hid
      rw [h.name_at (hhas q hq)] at hname
      split at hname
      · rw [← (Place.name_inj (Option.some.inj hname)).2]
        exact hq
      · refine absurd (Option.some.inj hname).symm (Place.name_ne_scaffold _ _ _ (Or.inr ?_))
        cases role <;> simp [Scaffold.rootName]
  · intro hm
    refine ⟨_, List.mem_append_right _ (List.mem_map_of_mem hm), ?_⟩
    simp [h.name_at (hhas _ hm), if_pos c.depth_pos]

end Layer.Hosts

namespace Codec

/-- Set some bits from outside, one after another. -/
def assign (c : Codec) (bits : List (Fin c.width × Bool)) (i : Instance) : Instance :=
  bits.foldl (fun i b => i.set (bitName c.parameter b.1) (.bool b.2)) i

/-- Set some bits from outside and run. -/
def receive (c : Codec) (m : Machine) (i : Instance) (bits : List (Fin c.width × Bool)) :
    Instance :=
  (m.run (c.assign bits i)).1

/-- The number that the bits spell. -/
def carried (c : Codec) (i : Instance) : Nat :=
  spelled (c.bits.map fun n => i.get? n = some (.bool true))

/-- An instance of the layer that decodes, away from the wearer and before its first run. -/
def remote (c : Codec) (layout : LayerLayout) (wd : Bool) (v : Int) : Instance :=
  c.channel.prepare false v (Machine.ofLayer (c.decoder layout wd)).start

/-! ## Bits -/

theorem carried_eq {c : Codec} {i : Instance} {b : Nat} (hs : c.Spells i.store b)
    (hb : b < 2 ^ c.width) : c.carried i = b := by
  have hm : (c.bits.map fun n => decide (i.get? n = some (.bool true))) = bitsOf c.width b := by
    rw [bits, bitsOf, List.map_map]
    apply List.map_congr_left
    intro k hk
    show decide (i.store.get? (bitName c.parameter k) = some (.bool true)) = b.testBit k
    rw [hs k (List.mem_range.1 hk)]
    cases b.testBit k <;> rfl
  simp [carried, hm, spelled_bitsOf, Nat.mod_eq_of_lt hb]

/-- Setting bits changes bits only, and they spell a number again. -/
theorem assign_eq (c : Codec) (bits : List (Fin c.width × Bool)) {i : Instance} {b : Nat}
    (hs : c.Spells i.store b) : ∃ (t : Store) (b' : Nat), c.assign bits i = { i with store := t }
      ∧ (∀ n, n ∉ c.bits → t.get? n = i.store.get? n) ∧ b' < 2 ^ c.width ∧ c.Spells t b' := by
  induction bits generalizing i b with
  | nil =>
    obtain ⟨b', hb', hf⟩ := exists_spelled b.testBit c.width
    exact ⟨i.store, b', rfl, fun n _ => rfl, hb', fun k hk => by rw [hs k hk, hf k hk]⟩
  | cons x bits ih =>
    obtain ⟨b₁, hb₁, hf⟩ := exists_spelled (fun k => if k = x.1 then x.2 else b.testBit k) c.width
    have h₁ : c.Spells (i.set (bitName c.parameter x.1) (.bool x.2)).store b₁ := by
      intro k hk
      rw [Instance.set, Store.get?_set, hf k hk]
      by_cases hx : k = x.1
      · rw [if_pos (by rw [hx]), if_pos hx]
      · simp [if_neg fun e => hx (bitName_inj.1 e), hx, hs k hk]
    obtain ⟨t, b', he, hfr, hb', ht⟩ := ih h₁
    refine ⟨t, b', he, ?_, hb', ht⟩
    intro n hn
    have hx : n ≠ bitName c.parameter x.1 := by
      rintro rfl
      exact hn (mem_bits.2 ⟨x.1, x.1.2, rfl⟩)
    simp [hfr n hn, Instance.set, Store.get?_set, hx]

/-- Setting bits leaves an instance where it stands. -/
theorem assign_at {c : Codec} {base : Nat} {i : Instance} {p : Place} {y : Int} {b : Nat}
    (ha : c.At .decode base i p y) (hs : c.Spells i.store b)
    (bits : List (Fin c.width × Bool)) :
    ∃ b' : Nat, b' < 2 ^ c.width ∧ c.Spells (c.assign bits i).store b'
      ∧ c.At .decode base (c.assign bits i) p y := by
  obtain ⟨t, b', ht, hfr, hb', hs'⟩ := c.assign_eq bits hs
  rw [ht]
  exact ⟨b', hb', hs', ha.withStore (hfr _ c.isLocal_not_mem_bits)
    ((hfr _ c.parameter_not_mem_bits).trans ha.shows)⟩

/-- Before its first run, the instance that decodes stands at its root and has no bits. -/
theorem remote_at (c : Codec) (hc : c.parameter ≠ isLocalName) (layout : LayerLayout) (wd : Bool)
    (base : Nat) (v : Int) : c.At .decode base (c.remote layout wd v) c.root v
      ∧ c.Spells (c.remote layout wd v).store 0 := by
  obtain ⟨s, hs, hl, hv, h0⟩ :=
    c.prepare_eq hc false v (Machine.ofLayer (c.decoder layout wd)).start
  unfold remote
  rw [hs]
  exact ⟨at_root base rfl hl hv, h0⟩

/-! ## Leaves on the way -/

theorem leaf_mem_route {c : Codec} {p : Place} (hp : c.Has p) {b : Nat} (hb : b < 2 ^ c.width)
    (y : Nat) : Place.mk 0 y ∈ c.route .decode b p
      ↔ c.stray b p = some y ∨ y = b ∧ b ≤ c.bound ∧ p ≠ ⟨0, b⟩ := by
  have hm : Place.mk 0 y ∈ c.route .decode b p
      ↔ Place.mk 0 y ∈ (c.route .decode b p).filter (·.level = 0) := by
    rw [List.mem_filter]
    exact ⟨fun h => ⟨h, rfl⟩, And.left⟩
  rw [hm, leaves_route_decode hp hb, List.mem_append, Option.mem_toList, Option.map_eq_some_iff]
  refine or_congr ⟨?_, fun h => ⟨y, h, rfl⟩⟩ ?_
  · rintro ⟨x, hx, e⟩
    simp [hx, (Place.mk.inj e).2]
  · split
    · rw [List.mem_singleton]
      exact ⟨fun e => ⟨(Place.mk.inj e).2, ‹_›⟩, fun h => by rw [h.1]⟩
    · exact ⟨fun h => absurd h List.not_mem_nil, fun h => absurd h.2 ‹_›⟩

/-! ## Deliveries -/

section
variable {c : Codec} {l : Layer} {base : Nat} (h : l.Hosts c .decode base)
include h

/-- After any deliveries an instance stands where the bits call for, if there was one at all. -/
theorem received_at (hc : c.parameter ≠ isLocalName)
    (deliveries : List (List (Fin c.width × Bool))) {i : Instance} {p : Place} {y : Int} {b : Nat}
    (ha : c.At .decode base i p y) (hb : b < 2 ^ c.width) (hs : c.Spells i.store b) :
    ∃ b' y', b' < 2 ^ c.width
      ∧ c.Spells (deliveries.foldl (c.receive (Machine.ofLayer l)) i).store b'
      ∧ c.At .decode base (deliveries.foldl (c.receive (Machine.ofLayer l)) i)
          (if deliveries = [] then p else c.rest b') y' := by
  induction deliveries generalizing i p y b with
  | nil => exact ⟨b, y, hb, hs, ha⟩
  | cons d deliveries ih =>
    obtain ⟨b₁, hb₁, hs₁, ha₁⟩ := assign_at ha hs d
    obtain ⟨n, j, z, hrun, hj, hjs⟩ := receive_at h hc ha₁ hb₁ hs₁
    have hr : c.receive (Machine.ofLayer l) i d = j := by rw [receive, hrun]
    obtain ⟨b', y', hb', hs'', ha''⟩ := ih hj hb₁ hjs
    rw [List.foldl_cons, hr]
    refine ⟨b', y', hb', hs'', ?_⟩
    rw [if_neg (List.cons_ne_nil _ _)]
    by_cases hd : deliveries = []
    · subst hd
      rw [if_pos rfl] at ha''
      obtain rfl : b₁ = b' := by rw [← carried_eq hjs hb₁, ← carried_eq hs'' hb']; rfl
      exact ha''
    · rw [if_neg hd] at ha''
      exact ha''

/-- A leaf is among the states that a run enters exactly if it is on the way. -/
theorem leaf_mem_enteredNames {i : Instance} {p : Place} (hp : c.Has p)
    (hst : c.Stands .decode base i p) {b : Nat} (hb : b < 2 ^ c.width)
    (hs : c.Spells i.store b) (y : Nat) :
    Place.name .decode ⟨0, y⟩ ∈ (Machine.ofLayer l).enteredNames i
      ↔ c.stray b p = some y ∨ y = b ∧ b ≤ c.bound ∧ p ≠ ⟨0, b⟩ :=
  (h.leaf_entered_iff hp hst ⟨b, rfl, hb, hs⟩ y).trans (leaf_mem_route hp hb y)

/-- What a run after a delivery enters and shows, from where the instance stands. -/
theorem run_after (hc : c.parameter ≠ isLocalName) {i : Instance} {p : Place} {y : Int} {b : Nat}
    (ha : c.At .decode base i p y) (hb : b < 2 ^ c.width) (hs : c.Spells i.store b) :
    ∃ n k, (Machine.ofLayer l).run i = (k, .ok n)
      ∧ k.get? c.parameter = if b ≤ c.bound then some (.int b) else
          ((c.stray b p).map fun x => some (.int x)).getD (i.get? c.parameter) := by
  have hr : c.Reads .decode i.store b := ⟨b, rfl, hb, hs⟩
  have hn : isLocalName ∉ c.outputs .decode := fun hm => hc (List.mem_singleton.1 hm).symm
  obtain ⟨n, -, hrun, hat⟩ := h.run_at hn ha hr
  have hshow : (c.arrived .decode base b p i.store).get? c.parameter
      = some (.int (shown y (c.route .decode b p))) := hat.shows
  have hval : i.get? c.parameter = some (.int y) := ha.shows
  refine ⟨n, _, hrun, ?_⟩
  rw [hshow, hval]
  by_cases hle : b ≤ c.bound
  · rw [if_pos hle, shown_route_of_le ha.has hr.readable ha.leaf (Int.natCast_nonneg b)
      (Int.ofNat_le.2 hle)]
  · rw [if_neg hle, shown_route_decode ha.has hb hle]
    cases c.stray b p <;> rfl

end

/-! ## The next delivery -/

theorem ne_of_stray {c : Codec} {b x : Nat} {p : Place} (h : c.stray b p = some x) : x ≠ b := by
  unfold stray at h
  split at h
  · rename_i hc
    intro e
    have hx := Option.some.inj h
    refine hc.2.1 ((covers_natCast p b).2 ?_)
    rw [← e, ← hx, Place.lo, Nat.mul_comm, Nat.mul_add_div p.span_pos,
      Nat.div_eq_of_lt (Nat.mod_lt b p.span_pos), Nat.add_zero]
  · cases h

/-- **What a delivery leads to.** After any deliveries, and for any bits that come next, the run
succeeds; it enters the leaf of the number that the bits spell, unless it stands there, and the
stray leaf, if there is one, and no other leaf. Then the parameter is that number if it is within
the bound; otherwise it is the stray leaf's value, or what it was. -/
theorem leaves_entered (c : Codec) (hc : c.parameter ≠ isLocalName) (layout : LayerLayout)
    (wd : Bool) (v : Int) (deliveries : List (List (Fin c.width × Bool)))
    (bits : List (Fin c.width × Bool)) :
    let m := Machine.ofLayer (c.decoder layout wd)
    let i := deliveries.foldl (c.receive m) (c.remote layout wd v)
    let j := c.assign bits i
    let b := c.carried j
    let p := if deliveries = [] then c.root else c.rest (c.carried i)
    ∃ n k, m.run j = (k, .ok n)
      ∧ ((∀ y : Nat, s!"decode_{y}" ∈ m.enteredNames j → y = b) ↔ c.stray b p = none)
      ∧ (∀ y : Nat, s!"decode_{y}" ∈ m.enteredNames j ↔
          c.stray b p = some y ∨ y = b ∧ b ≤ c.bound ∧ p ≠ ⟨0, b⟩)
      ∧ k.get? c.parameter = if b ≤ c.bound then some (.int b) else
          ((c.stray b p).map fun x => some (.int x)).getD (j.get? c.parameter) := by
  intro m i j b p
  obtain ⟨base, h⟩ := c.decoder_hosts layout wd
  obtain ⟨ha₀, hs₀⟩ := c.remote_at hc layout wd base v
  obtain ⟨b₁, y, hb₁, hs₁, ha₁⟩ := received_at h hc deliveries ha₀ (Nat.two_pow_pos _) hs₀
  have hp : (if deliveries = [] then c.root else c.rest b₁) = p := by
    show _ = if deliveries = [] then c.root else c.rest (c.carried i)
    rw [carried_eq hs₁ hb₁]
  rw [hp] at ha₁
  obtain ⟨b₂, hb, hs, ha⟩ := assign_at ha₁ hs₁ bits
  obtain rfl : b = b₂ := carried_eq hs hb
  obtain ⟨n, k, hrun, hk⟩ := run_after h hc ha hb hs
  have hleaf := leaf_mem_enteredNames h ha.has ha.stands hb hs
  refine ⟨n, k, hrun, ⟨?_, ?_⟩, hleaf, hk⟩
  · intro hall
    cases hx : c.stray b p with
    | none => rfl
    | some x => exact absurd (hall x ((hleaf x).2 (Or.inl hx))) (ne_of_stray hx)
  · intro hno y hy
    rcases (hleaf y).1 hy with hx | hx
    · rw [hno] at hx
      cases hx
    · exact hx.1

/-- A codec with one leaf beyond four full groups. -/
def seventeen : Codec := ⟨"P", 16, by decide⟩

/-- Bits that spell `5` make the parameter `5` on the first run. -/
theorem leaves_entered_five : ∃ n k,
    (Machine.ofLayer (seventeen.decoder .split true)).run (seventeen.assign
        [(⟨0, by decide⟩, true), (⟨2, by decide⟩, true)] (seventeen.remote .split true 0))
        = (k, .ok n)
      ∧ k.get? seventeen.parameter = some (.int 5) := by
  have hc : seventeen.parameter ≠ isLocalName := by decide
  obtain ⟨n, k, hrun, -, -, hv⟩ := leaves_entered seventeen hc .split true 0 []
    [(⟨0, by decide⟩, true), (⟨2, by decide⟩, true)]
  exact ⟨n, k, hrun, hv.trans (by decide +kernel)⟩

/-- Bits that spell `17` and then `20`, both beyond the bound, make the parameter `16`: its leaf is
the only one below the node where the first number parks. -/
theorem stray_leaf_entered :
    let m := Machine.ofLayer (seventeen.decoder .fused false)
    let i := [[(⟨0, by decide⟩, true), (⟨4, by decide⟩, true)]].foldl (seventeen.receive m)
      (seventeen.remote .fused false (-1))
    let j := seventeen.assign [(⟨0, by decide⟩, false), (⟨2, by decide⟩, true)] i
    seventeen.carried i = 17 ∧ seventeen.carried j = 20
      ∧ "decode_16" ∈ m.enteredNames j
      ∧ j.get? "P" = some (.int (-1)) ∧ (m.run j).1.get? "P" = some (.int 16) := by
  decide +kernel

end Codec

end AvatarBits
