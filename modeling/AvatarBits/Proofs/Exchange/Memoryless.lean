import AvatarBits.Proofs.Exchange.Layouts
import AvatarBits.Proofs.Exchange.Strays

/-!
# Where a run ends does not depend on what was before

An instance that has been told its side, its parameter and its bits may be told
more, and run, any number of times. It may stand anywhere in its tree then, over
a number that was never there or not there long, and the next run goes astray at
first. All the same it ends at the deepest node over the number that the instance
holds now, or at the root if there is none, within two ways through the tree.

* `Codec.Feeds`: what one side is told.
* `Codec.Stops`: the state in which a side stops for a number.

Results:
* `Codec.stops_iff`: there is one such state, that of the place where ways end.
* `Codec.Fed.feed`: what one event keeps of an instance.
* `Codec.run_memoryless`: where the next run ends, and what it enters.
-/
namespace AvatarBits

/-! Powers are those of the core library here, whatever else is imported. -/
attribute [local instance (2000)] instPowNat

/-! ## Where a side stops -/

/-- A number lies in the span of a node. -/
def TreeNode.Over (n : TreeNode) (x : Int) : Prop := (n.place.lo : Int) ≤ x ∧ x ≤ n.place.hi

/-- A node over a number, and no deeper one of the tree is. -/
structure SearchTree.Deepest (t : SearchTree) (x : Int) (n : TreeNode) : Prop where
  mem : n ∈ t.nodes
  spans : n.Over x
  least : ∀ n' ∈ t.nodes, n'.Over x → n.place.level ≤ n'.place.level

/-- Places of one level over one number are one place. -/
theorem Place.eq_of_covers {p q : Place} {x : Int} (hp : p.Covers x) (hq : q.Covers x)
    (h : p.level = q.level) : p = q := by
  obtain ⟨l, i⟩ := p
  obtain ⟨l', j⟩ := q
  obtain rfl : l = l' := h
  have hij : (i : Int) = j := hp.symm.trans hq
  rw [Int.ofNat_inj.1 hij]

namespace Codec

/-- The state in which a side stops for a number: the deepest node over it, or the root if no node
is. -/
inductive Stops (c : Codec) (role : Role) (x : Int) : String → Prop
  | node {n : TreeNode} : (c.tree role).Deepest x n → Stops c role x n.name
  | root : (∀ n ∈ (c.tree role).nodes, ¬ n.Over x) → Stops c role x (Scaffold.rootName role)

variable {c : Codec} {role : Role} {x : Int}

/-- Every node of a tree stands at a place. -/
theorem exists_place_of_node {n : TreeNode} (hn : n ∈ (c.tree role).nodes) :
    c.Has n.place ∧ n.place.level < c.depth ∧ n.name = n.place.name role := by
  obtain ⟨b, t, i, -, ht, hi, rfl⟩ := mem_nodes hn
  obtain ⟨k, hk, rfl⟩ := mem_tiers ht
  exact ⟨⟨Nat.le_of_lt hk, (c.lo_le_iff k i).2 (Nat.le_of_lt_succ hi)⟩, hk, rfl⟩

/-- At every place of a tree stands a node. -/
theorem exists_node_of_place {p : Place} (hp : c.Has p) (hl : p.level < c.depth) :
    ∃ n ∈ (c.tree role).nodes, n.place = p ∧ n.name = p.name role :=
  ⟨_, List.mem_of_getElem? (c.node_at role hp hl), rfl, rfl⟩

/-- Ways for a number end at a place that is as deep as any over the number. -/
theorem rest_level_le {p : Place} (hp : c.Has p) (h : p.Covers x) :
    (c.rest x).level ≤ p.level := by
  have hx : c.Readable .encode x := trivial
  have hbelow : (c.bottom .encode x p).level ≤ p.level := (bottom_below hx).1
  rwa [bottom_of_covers hp h] at hbelow

/-- Below the root, the place where ways end is over the number. -/
theorem rest_covers_of_lt (h : (c.rest x).level < c.depth) : (c.rest x).Covers x := by
  refine rest_covers (Classical.byContradiction fun hr => ?_)
  rw [rest, if_neg hr, root_level] at h
  exact Nat.lt_irrefl _ h

/-- A side stops in one state: that of the place where ways for the number end. -/
theorem stops_iff {s : String} : c.Stops role x s ↔ s =
    if (c.rest x).level < c.depth then (c.rest x).name role else Scaffold.rootName role := by
  have hover : ∀ n ∈ (c.tree role).nodes, n.Over x → (c.rest x).level ≤ n.place.level :=
    fun n hn ho => rest_level_le (exists_place_of_node hn).1 ((Place.covers_iff _ _).2 ho)
  by_cases hl : (c.rest x).level < c.depth
  · rw [if_pos hl]
    obtain ⟨n, hn, hplace, hname⟩ :
        ∃ n ∈ (c.tree role).nodes, n.place = c.rest x ∧ n.name = (c.rest x).name role :=
      exists_node_of_place (c.has_rest x) hl
    have hcov := rest_covers_of_lt hl
    have ho : n.Over x := by
      rw [TreeNode.Over, hplace]
      exact (Place.covers_iff _ _).1 hcov
    constructor
    · rintro (@⟨n', hd⟩ | hnone)
      · obtain ⟨hp', hl', hname'⟩ := exists_place_of_node hd.mem
        have hlevel := Nat.le_antisymm (hplace ▸ hd.least n hn ho) (hover n' hd.mem hd.spans)
        have hcov' := (Place.covers_iff _ _).2 hd.spans
        rw [hname', Place.eq_of_covers hcov' hcov hlevel]
      · exact absurd ho (hnone n hn)
    · rintro rfl
      rw [← hname]
      refine .node ⟨hn, ho, fun n' hn' ho' => ?_⟩
      rw [hplace]
      exact hover n' hn' ho'
  · rw [if_neg hl]
    have hnone : ∀ n ∈ (c.tree role).nodes, ¬ n.Over x := fun n hn ho =>
      hl (Nat.lt_of_le_of_lt (hover n hn ho) (exists_place_of_node hn).2.1)
    constructor
    · rintro (@⟨n', hd⟩ | -)
      · exact absurd hd.spans (hnone n' hd.mem)
      · rfl
    · rintro rfl
      exact .root hnone

/-! ## What a side is told -/

/-- What happens to one side: an integer for the parameter, a boolean for a bit, or a run. -/
inductive Feeds (c : Codec) : Event → Prop
  | parameter (x : Int) : Feeds c (.set c.parameter (.int x))
  | bit {k : Nat} (hk : k < c.width) (b : Bool) : Feeds c (.set (bitName c.parameter k) (.bool b))
  | run : Feeds c .run

/-- Before its first run an instance is told where it is, and has its parameter and all bits. -/
structure Prepares (c : Codec) (role : Role) (es : List Event) : Prop where
  still : .run ∉ es
  feeds : ∀ e ∈ es, c.Feeds e ∨ ∃ b, e = .set isLocalName (.bool b)
  all : ∀ n ∈ c.names, ∃ v, .set n v ∈ es
  side : (given es).get? isLocalName = some (.bool (decide (role = .encode)))

/-- The layer in which a role's tree runs. -/
def layerOf (c : Codec) : Role → LayerLayout → Bool → Layer
  | .encode => c.encoder
  | .decode => c.decoder

/-- The number that counts on a side: what the parameter holds on the wearer's own instance, what
the bits spell elsewhere. -/
def steering (c : Codec) : Role → Instance → Option Int
  | .encode, i => (i.get? c.parameter).bind ParamValue.toInt?
  | .decode, i => some (c.carried i)

theorem layerOf_hosts (c : Codec) (role : Role) (layout : LayerLayout) (wd : Bool) :
    ∃ base, (c.layerOf role layout wd).Hosts c role base := by
  cases role with
  | encode => exact c.encoder_hosts layout wd
  | decode => exact c.decoder_hosts layout wd

/-! ## What stays -/

/-- An instance of a side stands at some place, and holds an integer and booleans. -/
structure Fed (c : Codec) (role : Role) (base : Nat) (i : Instance) : Prop where
  place : ∃ p, c.Has p ∧ (i.started = true ∧ i.current = c.address role base p
    ∨ i.started = false ∧ p = c.root)
  side : i.get? isLocalName = some (.bool (decide (role = .encode)))
  parameter : ∃ x, i.get? c.parameter = some (.int x)
  bits : ∀ k, k < c.width → ∃ b, i.get? (bitName c.parameter k) = some (.bool b)

end Codec

/-- A name that holds a value of a kind does so after any writes. -/
theorem Store.exists_writeAll {K : ParamValue → Prop} (hK : ∀ v x, K v → K (v.withNumber x))
    {s : Store} {n : String} (h : ∃ v, s.get? n = some v ∧ K v) (ws : List (String × Single)) :
    ∃ v, (s.writeAll ws).get? n = some v ∧ K v := by
  induction ws generalizing s with
  | nil => exact h
  | cons w ws ih =>
    refine ih ?_
    obtain ⟨v, hv, hk⟩ := h
    rw [get?_write]
    by_cases hn : n = w.1
    · rw [if_pos hn, ← hn, hv]
      exact ⟨_, rfl, hK v w.2 hk⟩
    · rw [if_neg hn]
      exact ⟨v, hv, hk⟩

namespace Codec

variable {c : Codec} {role : Role}

/-- So it does after a tree has gone through some places. -/
theorem exists_foldl_deposit {K : ParamValue → Prop} (hK : ∀ v x, K v → K (v.withNumber x))
    {s : Store} {n : String} (h : ∃ v, s.get? n = some v ∧ K v) (ps : List Place) :
    ∃ v, (ps.foldl (c.deposit role) s).get? n = some v ∧ K v := by
  induction ps generalizing s with
  | nil => exact h
  | cons p ps ih =>
    refine ih ?_
    unfold deposit
    split
    · exact Store.exists_writeAll hK h _
    · exact h

namespace Fed

variable {base : Nat} {i : Instance} (h : c.Fed role base i)
include h

/-- There is a number that counts, and the tree reads it. -/
theorem reads : ∃ x, c.steering role i = some x ∧ c.Reads role i.store x := by
  cases role with
  | encode =>
    obtain ⟨x, hx⟩ := h.parameter
    exact ⟨x, by simp [steering, hx, ParamValue.toInt?], hx⟩
  | decode =>
    obtain ⟨b, hb, hf⟩ := exists_spelled
      (fun k => i.get? (bitName c.parameter k) = some (.bool true)) c.width
    have hs : c.Spells i.store b := by
      intro k hk
      obtain ⟨v, hv⟩ := h.bits k hk
      show i.get? (bitName c.parameter k) = _
      rw [hf k hk, hv]
      cases v <;> rfl
    exact ⟨b, congrArg some (congrArg Int.ofNat (carried_eq hs hb)), b, rfl, hb, hs⟩

theorem stands : ∃ p, c.Has p ∧ c.Stands role base i p := by
  obtain ⟨p, hp, hplace⟩ := h.place
  exact ⟨p, hp, hplace.imp_right fun ⟨hs, hr⟩ => ⟨hs, hr, _, h.side, isSet_bool _⟩⟩

/-- Being told a name's value makes no difference if the name has a value of that kind again. -/
theorem set {name : String} {v : ParamValue} (hside : name ≠ isLocalName)
    (hparameter : name = c.parameter → ∃ x, v = .int x)
    (hbit : ∀ k, name = bitName c.parameter k → ∃ b, v = .bool b) :
    c.Fed role base (i.set name v) where
  place := h.place
  side := by
    show (i.store.set name v).get? isLocalName = _
    rw [Store.get?_set, if_neg (Ne.symm hside)]
    exact h.side
  parameter := by
    show ∃ x, (i.store.set name v).get? c.parameter = _
    rw [Store.get?_set]
    split
    · obtain ⟨x, rfl⟩ := hparameter (Eq.symm ‹_›)
      exact ⟨x, rfl⟩
    · exact h.parameter
  bits k hk := by
    show ∃ b, (i.store.set name v).get? (bitName c.parameter k) = _
    rw [Store.get?_set]
    split
    · obtain ⟨b, rfl⟩ := hbit k (Eq.symm ‹_›)
      exact ⟨b, rfl⟩
    · exact h.bits k hk

/-- A run ends at a place again, and what it writes keeps its kind. -/
theorem arrived {x : Int} {p : Place} (hn : isLocalName ∉ c.outputs role) :
    c.Fed role base (c.arrived role base x p i.store) where
  place := ⟨c.rest x, c.has_rest x, Or.inl ⟨rfl, rfl⟩⟩
  side := (get?_foldl_deposit hn).trans h.side
  parameter := by
    obtain ⟨x, hx⟩ := h.parameter
    obtain ⟨v, hv, y, rfl⟩ := exists_foldl_deposit (K := fun v => ∃ y, v = .int y)
      (fun v z ⟨y, hy⟩ => ⟨z.truncate, by rw [hy]; rfl⟩) ⟨_, hx, x, rfl⟩ (c.route role _ p)
    exact ⟨y, hv⟩
  bits k hk := by
    obtain ⟨b, hb⟩ := h.bits k hk
    obtain ⟨v, hv, b', rfl⟩ := exists_foldl_deposit (K := fun v => ∃ b, v = .bool b)
      (fun v z ⟨b, hb⟩ => ⟨!z.isZero, by rw [hb]; rfl⟩) ⟨_, hb, b, rfl⟩ (c.route role _ p)
    exact ⟨b', hv⟩

end Fed

theorem isLocal_not_mem_outputs (hc : c.parameter ≠ isLocalName) (role : Role) :
    isLocalName ∉ c.outputs role := by
  cases role with
  | encode => exact c.isLocal_not_mem_bits
  | decode => exact fun hm => hc (List.mem_singleton.1 hm).symm

section
variable {l : Layer} {base : Nat} {i : Instance} (hc : c.parameter ≠ isLocalName)
include hc

/-- One event. -/
theorem Fed.feed (hh : l.Hosts c role base) (h : c.Fed role base i) {e : Event} (he : c.Feeds e) :
    c.Fed role base ((Machine.ofLayer l).react i e) := by
  cases he with
  | parameter x =>
    exact h.set hc (fun _ => ⟨x, rfl⟩) fun k e => absurd e.symm (bitName_ne_parameter _ _)
  | bit hk b =>
    exact h.set (bitName_ne_isLocal _ _) (fun e => absurd e (bitName_ne_parameter _ _))
      fun _ _ => ⟨b, rfl⟩
  | run =>
    obtain ⟨x, -, hr⟩ := h.reads
    obtain ⟨p, hp, hs⟩ := h.stands
    obtain ⟨n, -, hrun, -⟩ := hh.run_eq hp hs hr
    rw [Machine.react, hrun]
    exact h.arrived (isLocal_not_mem_outputs hc role)

/-- Any number of events. -/
theorem Fed.play (hh : l.Hosts c role base) {es : List Event} (hes : ∀ e ∈ es, c.Feeds e)
    (h : c.Fed role base i) : c.Fed role base ((Machine.ofLayer l).play es i) := by
  induction es generalizing i with
  | nil => exact h
  | cons e es ih =>
    rw [List.forall_mem_cons] at hes
    exact ih hes.2 (h.feed hc hh hes.1)

end

/-- Without runs, an instance holds what it has been given and does nothing. -/
theorem play_of_still {m : Machine} {es : List Event} (h : .run ∉ es) (i : Instance) :
    m.play es i = { i with store := es.foldl Store.give i.store } := by
  induction es generalizing i with
  | nil => rfl
  | cons e es ih =>
    rw [List.mem_cons, not_or] at h
    cases e with
    | run => exact absurd rfl h.1
    | set name v => exact ih h.2 (i.set name v)

/-- A name that has been given holds one of the values that it was given. -/
theorem get?_of_given {es : List Event} {name : String} (h : ∃ v, .set name v ∈ es) (s : Store) :
    ∃ v, (es.foldl Store.give s).get? name = some v ∧ .set name v ∈ es := by
  -- the last event for the name decides
  induction es using List.reverseRecOn with
  | nil =>
    obtain ⟨v, hv⟩ := h
    cases hv
  | append_singleton es e ih =>
    have hold : (∃ v, Event.set name v ∈ es) → (∀ v, e ≠ .set name v) →
        ∃ v, ((es ++ [e]).foldl Store.give s).get? name = some v ∧ .set name v ∈ es ++ [e] := by
      intro hes hne
      obtain ⟨v, hv, hmem⟩ := ih hes
      refine ⟨v, ?_, List.mem_append_left _ hmem⟩
      rw [List.foldl_append, ← hv]
      cases e with
      | run => rfl
      | set n w =>
        have hn : name ≠ n := fun hn => hne w (by rw [hn])
        exact (Store.get?_set _ _ _ _).trans (if_neg hn)
    by_cases he : ∃ v, e = .set name v
    · obtain ⟨v, rfl⟩ := he
      refine ⟨v, ?_, by simp⟩
      rw [List.foldl_append]
      exact (Store.get?_set _ _ _ _).trans (if_pos rfl)
    · rw [not_exists] at he
      refine hold ?_ he
      obtain ⟨v, hv⟩ := h
      rcases List.mem_append.1 hv with hv | hv
      · exact ⟨v, hv⟩
      · exact absurd (List.mem_singleton.1 hv).symm (he v)

/-- Prepared, an instance stands at its root and has all it needs. -/
theorem fed_of_prepares (hc : c.parameter ≠ isLocalName) {base : Nat} {m : Machine}
    {es : List Event} (h : c.Prepares role es) : c.Fed role base (m.play es m.start) := by
  have hget : ∀ n, (m.play es m.start).get? n = (given es).get? n := by
    intro n
    rw [play_of_still h.still]
    rfl
  have hstarted : (m.play es m.start).started = false := by
    rw [play_of_still h.still]
    rfl
  refine ⟨⟨c.root, c.has_root, Or.inr ⟨hstarted, rfl⟩⟩, (hget _).trans h.side, ?_, ?_⟩
  · obtain ⟨v, hv, hmem⟩ := get?_of_given
      (h.all c.parameter (List.mem_cons_of_mem _ List.mem_cons_self)) {}
    rw [hget, given, hv]
    rcases h.feeds _ hmem with hf | ⟨b, hb⟩
    · generalize hn : c.parameter = n at hf
      cases hf with
      | parameter x => exact ⟨x, rfl⟩
      | bit => exact absurd hn.symm (bitName_ne_parameter _ _)
    · exact absurd (Event.set.inj hb).1 hc
  · intro k hk
    have hbit : bitName c.parameter k ∈ c.names :=
      List.mem_cons_of_mem _ (List.mem_cons_of_mem _ (mem_bits.2 ⟨k, hk, rfl⟩))
    obtain ⟨v, hv, hmem⟩ := get?_of_given (h.all _ hbit) {}
    rw [hget, given, hv]
    rcases h.feeds _ hmem with hf | ⟨b, hb⟩
    · generalize hn : bitName c.parameter k = n at hf
      cases hf with
      | parameter x => exact absurd hn (bitName_ne_parameter _ _)
      | bit hk b => exact ⟨b, rfl⟩
    · exact ⟨b, congrArg some (Event.set.inj hb).2⟩

/-! ## The next run -/

/-- The encode tree enters no leaf but that of the number. -/
theorem leaf_of_route_encode {x : Int} {p : Place} (hp : c.Has p) {y : Nat}
    (h : Place.mk 0 y ∈ c.route .encode x p) : x = y := by
  have hm : Place.mk 0 y ∈ (c.route .encode x p).filter (·.level = 0) :=
    List.mem_filter.2 ⟨h, rfl⟩
  rw [leaves_route_encode hp] at hm
  split at hm
  · have hy : y = x.toNat := congrArg Place.index (List.mem_singleton.1 hm)
    omega
  · cases hm

/-- **No memory.** Whatever a side has been told, and whenever it has run before, its next run
succeeds within twice as many transitions as its tree has levels, and it stops in the state that
belongs to the number it holds now, which is the leaf of that number if it is within the bound. On
the way to the bits it enters no leaf but that one. -/
theorem run_memoryless (c : Codec) (hc : c.parameter ≠ isLocalName) (role : Role)
    (layout : LayerLayout) (wd : Bool) {before after : List Event} (hb : c.Prepares role before)
    (ha : ∀ e ∈ after, c.Feeds e) :
    let m := Machine.ofLayer (c.layerOf role layout wd)
    let i := m.play (before ++ after) m.start
    ∃ x n j s, c.steering role i = some x ∧ m.run i = (j, .ok n)
      ∧ n ≤ 2 * (c.tree role).depth
      ∧ m.stateName? j = some s ∧ (∀ s', c.Stops role x s' ↔ s' = s)
      ∧ (∀ y : Nat, x = y → y ≤ c.bound → s = s!"{role.word}_{y}")
      ∧ (role = .encode → ∀ y : Nat, s!"encode_{y}" ∈ m.enteredNames i → x = y) := by
  intro m i
  obtain ⟨base, hh⟩ := c.layerOf_hosts role layout wd
  have hfed : c.Fed role base i := by
    show c.Fed role base (m.play (before ++ after) m.start)
    rw [Machine.play, List.foldl_append]
    exact (fed_of_prepares hc hb).play hc hh ha
  obtain ⟨x, hx, hr⟩ := hfed.reads
  obtain ⟨p, hp, hs⟩ := hfed.stands
  obtain ⟨n, hle, hrun, -⟩ := hh.run_eq hp hs hr
  have hname := hh.name_at (c.has_rest x)
  refine ⟨x, n, _, _, hx, hrun, hle, hname, fun _ => stops_iff, ?_, ?_⟩
  · rintro y rfl hy
    rw [rest_of_le hy, if_pos c.depth_pos]
    rfl
  · rintro rfl y hy
    exact leaf_of_route_encode hp ((hh.leaf_entered_iff hp hs hr y).1 hy)

/-- What prepares an instance of a side. -/
def preparation (c : Codec) (role : Role) : List Event :=
  .set isLocalName (.bool (decide (role = .encode))) :: .set c.parameter (.int 0)
    :: (List.range c.width).map fun k => .set (bitName c.parameter k) (.bool false)

theorem prepares_preparation (c : Codec) (hc : c.parameter ≠ isLocalName) (role : Role) :
    c.Prepares role (c.preparation role) where
  still := by simp [preparation]
  feeds e he := by
    rcases List.mem_cons.1 he with rfl | he
    · exact Or.inr ⟨_, rfl⟩
    rcases List.mem_cons.1 he with rfl | he
    · exact Or.inl (.parameter 0)
    · obtain ⟨k, hk, rfl⟩ := List.mem_map.1 he
      exact Or.inl (.bit (List.mem_range.1 hk) false)
  all n hn := by
    rcases List.mem_cons.1 hn with rfl | hn
    · exact ⟨_, List.mem_cons_self⟩
    rcases List.mem_cons.1 hn with rfl | hn
    · exact ⟨_, List.mem_cons_of_mem _ List.mem_cons_self⟩
    · obtain ⟨k, hk, rfl⟩ := mem_bits.1 hn
      exact ⟨_, List.mem_cons_of_mem _ (List.mem_cons_of_mem _
        (List.mem_map.2 ⟨k, List.mem_range.2 hk, rfl⟩))⟩
  side := by
    have hrest : ∀ (ks : List Nat) (s : Store),
        ((ks.map fun k => Event.set (bitName c.parameter k) (.bool false)).foldl Store.give s).get?
          isLocalName = s.get? isLocalName := by
      intro ks
      induction ks with
      | nil => exact fun _ => rfl
      | cons k ks ih =>
        intro s
        exact (ih _).trans ((Store.get?_set _ _ _ _).trans
          (if_neg (bitName_ne_isLocal _ _).symm))
    refine (hrest _ _).trans ?_
    exact (Store.get?_set _ _ _ _).trans (if_neg (Ne.symm hc))

/-- Bits that spell `17`, a run, and bits that spell `20`, both beyond the bound of `16`. -/
def seventeenTwenty : List Event :=
  [.set "P.bit_0" (.bool true), .set "P.bit_4" (.bool true), .run, .set "P.bit_0" (.bool false),
    .set "P.bit_2" (.bool true)]

/-- The next run goes through a leaf below where the instance was parked, and all the same it stops
at the deepest node over `20`. -/
theorem run_memoryless_seventeen :
    let m := Machine.ofLayer (seventeen.layerOf .decode .fused true)
    let i := m.play (seventeen.preparation .decode ++ seventeenTwenty) m.start
    seventeen.steering .decode i = some 20
      ∧ ∃ n j, m.run i = (j, .ok n) ∧ n ≤ 6 ∧ m.stateName? j = some "decode_l2_1" := by
  intro m i
  have hc : seventeen.parameter ≠ isLocalName := by decide
  have hfeeds : ∀ e ∈ seventeenTwenty, seventeen.Feeds e := by
    have hbit : ∀ k b, k < seventeen.width → seventeen.Feeds (.set (bitName "P" k) (.bool b)) :=
      fun k b hk => .bit hk b
    intro e he
    simp only [seventeenTwenty, List.mem_cons, List.not_mem_nil, or_false] at he
    rcases he with rfl | rfl | rfl | rfl | rfl
    · exact hbit 0 true (by decide)
    · exact hbit 4 true (by decide)
    · exact .run
    · exact hbit 0 false (by decide)
    · exact hbit 2 true (by decide)
  obtain ⟨x, n, j, s, -, hrun, hn, hs, -⟩ := run_memoryless seventeen hc .decode .fused true
    (seventeen.prepares_preparation hc .decode) hfeeds
  have hstate : m.stateName? (m.run i).1 = some "decode_l2_1" := by decide +kernel
  refine ⟨by decide +kernel, n, j, hrun, Nat.le_trans hn (by decide +kernel), ?_⟩
  rw [show m.run i = (j, .ok n) from hrun] at hstate
  exact hstate

end Codec

end AvatarBits
