import AvatarBits.Proofs.Analysis.Exact
import AvatarBits.Proofs.Codec.Grafting

/-!
# What generated layers write and test

The layers of a codec write the bits of its parameter, each to zero or one, and
the parameter, to values up to its bound. They test these bits, the parameter,
and the built-in parameter, the last without a number to compare it with. What
is written at a leaf and tested at an edge is so by the definition of the two
trees; splicing only moves it, and so does turning a layer into one of a
controller.

* `Codec.Writes`, `Codec.Tests`: the writes and tests of a codec.
* `Layer.Confined`: a layer that makes no others.

Results:
* `Codec.exists_place_of_edge`: every edge of a tree enters a place or leaves one.
* `Codec.confined`: the layers of a codec are confined to it.
* `Layer.Confined.contains`: so are the machines that they turn into.
-/
namespace AvatarBits

/-! ## Writes and tests of a codec -/

/-- A write of a codec: one of the bits of its parameter, or the parameter to a value up to its
bound. -/
inductive Codec.Writes (c : Codec) : DriverAction → Prop
  | bit {k : Nat} (set : Bool) : k < c.width →
    Writes c (.set (bitName c.parameter k) (.ofInt set.toNat))
  | value {v : Nat} : v ≤ c.bound → Writes c (.set c.parameter (.ofInt v))

/-- A test of a codec: of the built-in parameter, of one of the bits of its parameter, or of the
parameter. -/
inductive Codec.Tests (c : Codec) : Condition → Prop
  | isLocal : Tests c ⟨.isSet, isLocalName, 0⟩
  | isRemote : Tests c ⟨.notSet, isLocalName, 0⟩
  | bit {k : Nat} (set : Bool) : k < c.width → Tests c (c.bitIs k set)
  | value (mode : ConditionMode) (threshold : Int) : Tests c (c.value mode threshold)

namespace Codec

variable {c : Codec}

/-- A number that a codec writes or compares with belongs to its parameter, or is at most one. -/
theorem Writes.gives {d : DriverAction} (h : c.Writes d) {name : String} {x : Single}
    (hg : d.Gives name x) : name = c.parameter ∨ x.truncate ≤ 1 := by
  cases h with
  | bit set hk =>
    cases hg
    refine Or.inr ?_
    cases set <;> decide +kernel
  | value hv =>
    cases hg
    exact Or.inl rfl

theorem Tests.compares {k : Condition} (h : c.Tests k) {name : String} {x : Single}
    (hc : k.Compares name x) : name = c.parameter := by
  cases h with
  | isLocal => cases hc
  | isRemote => cases hc
  | bit set hk => cases set <;> cases hc
  | value mode threshold => cases hc <;> rfl

/-! ## Trees -/

theorem leafActions_writes {role : Role} {v : Nat} (hv : v ≤ c.bound) {d : DriverAction}
    (hd : d ∈ c.leafActions role v) : c.Writes d := by
  cases role with
  | encode =>
    obtain ⟨k, hk, rfl⟩ := List.mem_map.1 hd
    exact .bit _ (List.mem_range.1 hk)
  | decode =>
    obtain rfl := List.mem_singleton.1 hd
    exact .value hv

theorem enter_tests {role : Role} {p : Place} (hp : p.level < c.depth) {k : Condition}
    (hk : k ∈ c.enter role p) : c.Tests k := by
  cases role with
  | encode =>
    rw [enter] at hk
    split at hk
    · obtain rfl := List.mem_singleton.1 hk
      exact .value _ _
    · rcases List.mem_cons.1 hk with rfl | hk
      · exact .value _ _
      · obtain rfl := List.mem_singleton.1 hk
        exact .value _ _
  | decode =>
    rw [enter] at hk
    rcases List.mem_cons.1 hk with rfl | hk
    · exact .bit _ (c.two_mul_level_lt_width hp)
    · split at hk
      · obtain rfl := List.mem_singleton.1 hk
        exact .bit _ ‹_›
      · cases hk

theorem leave_tests {role : Role} {p : Place} {k : Condition} (hk : k ∈ c.leave role p) :
    c.Tests k := by
  cases role with
  | encode =>
    rw [leave] at hk
    split at hk
    · obtain rfl := List.mem_singleton.1 hk
      exact .value _ _
    · rcases List.mem_cons.1 hk with rfl | hk
      · exact .value _ _
      · obtain rfl := List.mem_singleton.1 hk
        exact .value _ _
  | decode =>
    obtain ⟨j, hj, rfl⟩ := List.mem_map.1 hk
    obtain ⟨hlo, hhi⟩ := List.mem_range'_1.1 hj
    exact .bit _ (by omega)

theorem mem_tiers {t : Tier} (h : t ∈ c.tiers) : ∃ k < c.depth, t = c.tier k := by
  obtain ⟨n, hd, ht, -⟩ := c.tiers_spec
  rw [ht] at h
  obtain ⟨k, hk, rfl⟩ := List.mem_map.1 h
  exact ⟨k, hd ▸ List.mem_range.1 hk, rfl⟩

/-- A node of some levels stands on one of them; the one below it is among them too, unless it is
that below the first. -/
theorem mem_nodes {role : Role} {below : Option Tier} {ts : List Tier} {n : TreeNode}
    (h : n ∈ c.nodes role below ts) :
    ∃ b t i, (b = below ∨ ∃ u ∈ ts, b = some u) ∧ t ∈ ts ∧ i < t.count
      ∧ n = c.node role b t.level i := by
  induction ts generalizing below with
  | nil => cases h
  | cons t ts ih =>
    rw [nodes] at h
    rcases List.mem_append.1 h with h | h
    · obtain ⟨i, hi, rfl⟩ := List.mem_map.1 h
      exact ⟨below, t, i, Or.inl rfl, List.mem_cons_self, List.mem_range.1 hi, rfl⟩
    · obtain ⟨b, u, i, hb, hu, hi, rfl⟩ := ih h
      refine ⟨b, u, i, Or.inr ?_, List.mem_cons_of_mem _ hu, hi, rfl⟩
      rcases hb with rfl | ⟨w, hw, rfl⟩
      · exact ⟨t, List.mem_cons_self, rfl⟩
      · exact ⟨w, List.mem_cons_of_mem _ hw, rfl⟩

variable {role : Role}

theorem tree_writes {n : TreeNode} (hn : n ∈ (c.tree role).nodes) {d : DriverAction}
    (hd : d ∈ n.actions) : c.Writes d := by
  obtain ⟨b, t, i, -, ht, hi, rfl⟩ := mem_nodes hn
  obtain ⟨j, -, rfl⟩ := mem_tiers ht
  cases j with
  | zero =>
    have hv : i < c.bound / radix ^ 0 + 1 := hi
    rw [Nat.pow_zero, Nat.div_one] at hv
    exact leafActions_writes (Nat.le_of_lt_succ hv) hd
  | succ j => cases hd

theorem has_of_tier {t : Tier} (ht : t ∈ c.tiers) {i : Nat} (hi : i < t.count) :
    c.Has ⟨t.level, i⟩ ∧ t.level < c.depth := by
  obtain ⟨k, hk, rfl⟩ := mem_tiers ht
  exact ⟨⟨Nat.le_of_lt hk, (c.lo_le_iff k i).2 (Nat.le_of_lt_succ hi)⟩, hk⟩

/-- Every edge of a tree enters a place or leaves one. -/
theorem exists_place_of_edge {e : Edge} (he : e ∈ (c.tree role).rootEdges
      ∨ ∃ n ∈ (c.tree role).nodes, e ∈ n.edges) :
    ∃ p, c.Has p ∧ p.level < c.depth
      ∧ ∀ k ∈ e.conditions, k ∈ c.enter role p ∨ k ∈ c.leave role p := by
  have hdescent {t : Tier} (ht : t ∈ c.tiers) {i : Nat} (hi : i < t.count) :
      ∃ p, c.Has p ∧ p.level < c.depth ∧ ∀ k ∈ (c.descent role t i).conditions,
        k ∈ c.enter role p ∨ k ∈ c.leave role p :=
    ⟨⟨t.level, i⟩, (has_of_tier ht hi).1, (has_of_tier ht hi).2, fun _ hk => .inl hk⟩
  rcases he with he | ⟨n, hn, he⟩
  · simp only [tree] at he
    split at he
    · cases he
    · obtain ⟨i, hi, rfl⟩ := List.mem_map.1 he
      exact hdescent (List.mem_of_getLast? ‹_›) (List.mem_range.1 hi)
  · obtain ⟨b, t, i, hb, ht, hi, rfl⟩ := mem_nodes hn
    rcases List.mem_append.1 he with he | he
    · rcases hb with rfl | ⟨u, hu, rfl⟩
      · cases he
      · obtain ⟨j, hj, rfl⟩ := List.mem_map.1 he
        exact hdescent hu (by have := List.mem_range'_1.1 hj; omega)
    · obtain ⟨k, hk, rfl⟩ := List.mem_map.1 he
      exact ⟨⟨t.level, i⟩, (has_of_tier ht hi).1, (has_of_tier ht hi).2,
        List.forall_mem_singleton.2 (.inr hk)⟩

theorem edge_tests {e : Edge} (he : e ∈ (c.tree role).rootEdges
      ∨ ∃ n ∈ (c.tree role).nodes, e ∈ n.edges) {k : Condition} (hk : k ∈ e.conditions) :
    c.Tests k := by
  obtain ⟨p, -, hl, hplace⟩ := exists_place_of_edge he
  exact (hplace k hk).elim (enter_tests hl) leave_tests

end Codec

/-! ## Layers -/

namespace Layer

/-- A layer writes and tests what a codec does. -/
structure Confined (l : Layer) (c : Codec) : Prop where
  writes : ∀ s ∈ l.states, ∀ d ∈ s.actions, c.Writes d
  tests : ∀ t ∈ l.transitions, ∀ k ∈ t.conditions, c.Tests k

variable {l : Layer} {c : Codec}

/-- A transition of a layer with a tree spliced in was there before or comes of an edge. -/
theorem mem_transitions_splice {tree : SearchTree} {root : Nat} {t : LayerTransition}
    (ht : t ∈ (l.splice tree root).transitions) :
    t ∈ l.transitions ∨ ∃ e, (e ∈ tree.rootEdges ∨ ∃ n ∈ tree.nodes, e ∈ n.edges)
      ∧ t.conditions = e.conditions ∧ t.duration = 0 := by
  rw [transitions_splice] at ht
  rcases List.mem_append.1 ht with ht | ht
  · rcases List.mem_append.1 ht with ht | ht
    · exact .inl ht
    · obtain ⟨e, he, rfl⟩ := List.mem_map.1 ht
      exact .inr ⟨e, .inl he, rfl, rfl⟩
  · obtain ⟨⟨n, id⟩, hn, ht⟩ := List.mem_flatMap.1 ht
    obtain ⟨e, he, rfl⟩ := List.mem_map.1 ht
    exact .inr ⟨e, .inr ⟨n, (List.mem_zipIdx' hn).2 ▸ List.getElem_mem _, he⟩, rfl, rfl⟩

/-- Splicing in a tree of the codec keeps a layer confined. -/
theorem Confined.splice (h : l.Confined c) (role : Role) (root : Nat) :
    (l.splice (c.tree role) root).Confined c where
  writes s hs := by
    rw [states_splice] at hs
    rcases List.mem_append.1 hs with hs | hs
    · exact h.writes s hs
    · obtain ⟨n, hn, rfl⟩ := List.mem_map.1 hs
      exact fun d hd => Codec.tree_writes hn hd
  tests t ht k hk := by
    rcases mem_transitions_splice ht with ht | ⟨e, he, hconditions, -⟩
    · exact h.tests t ht k hk
    · exact Codec.edge_tests he (hconditions ▸ hk)

/-- The machine of a layer of a controller behaves as the states do that it was turned from, and its
transitions are those between them. -/
theorem Confined.contains (h : l.Confined c) {k : ControllerLayer} (hk : l.toController? = some k)
    {m : StateMachine} (hm : k.machine.Contains m) :
    (∀ b, m.Behaves b → ∀ d ∈ b.actions, c.Writes d)
      ∧ ∀ t, m.Transits t → ∀ q ∈ t.conditions, c.Tests q := by
  obtain ⟨-, rfl⟩ := toController?_eq_some_iff.1 hk
  -- no machine is nested in the one that a layer turns into
  cases hm with
  | nested hn _ => cases hn
  | self _ =>
    constructor
    · rintro b (hb | ⟨s, hs, hb⟩) d hd
      · cases hb
      · obtain ⟨i, hi, rfl⟩ := List.mem_mapIdx.1 hs
        have hwritten : d ∈ l.states[i].actions := by
          rw [← LayerState.actions_behaviours]
          exact List.mem_flatMap.2 ⟨b, hb, hd⟩
        exact h.writes _ (List.getElem_mem hi) d hwritten
    · rintro t (ht | ht | ⟨s, hs, ht⟩ | ⟨n, hn, -⟩)
      · cases ht
      · cases ht
      · obtain ⟨i, hi, rfl⟩ := List.mem_mapIdx.1 hs
        obtain ⟨u, hu, rfl⟩ := List.mem_map.1 ht
        exact h.tests u (List.mem_filter.1 hu).1
      · cases hn

theorem isAlias_toController {k : ControllerLayer} (hk : l.toController? = some k) :
    k.isAlias = false := by
  obtain ⟨-, rfl⟩ := toController?_eq_some_iff.1 hk
  rfl

end Layer

theorem scaffold_confined (name : String) (wd : Bool) (c : Codec) :
    (scaffold name wd).Confined c where
  writes := by
    rw [forall_states_scaffold]
    exact ⟨List.forall_mem_nil _, List.forall_mem_nil _, List.forall_mem_nil _⟩
  tests := by
    rw [forall_transitions_scaffold]
    exact ⟨List.forall_mem_singleton.2 .isLocal, List.forall_mem_singleton.2 .isRemote⟩

/-- **Footprint.** The layers of a codec write and test nothing but what the codec does. -/
theorem Codec.confined (c : Codec) (layout : LayerLayout) (wd : Bool) :
    ∀ l ∈ (c.assemble layout wd).layers, l.Confined c :=
  forall_layers (scaffold_confined · wd c) (fun _ role hl => hl.splice role _) layout

end AvatarBits
