import AvatarBits.Proofs.Codec.Footprint
import AvatarBits.Proofs.Codec.Grafting

/-!
# Where transitions begin and end

An edge of a tree ends at one of the tree's nodes or at its root. Splicing shifts
both ends of an edge alike, past the states that were there before, so a layer
whose transitions run between its own states keeps that property, and the layers
of a codec have it. Only such a layer turns into a layer of a controller.

* `SearchTree.Closed`: every edge ends inside the tree.

Results:
* `Codec.tree_closed`: the trees of a codec are closed.
* `Layer.Closed.splice`: splicing in a closed tree keeps a layer closed.
* `Codec.layers_closed`: the layers of a codec are closed.
-/
namespace AvatarBits

/-! ## Trees -/

/-- A target is the root or one of the first `n` nodes. -/
def Target.Within (n : Nat) : Target → Prop
  | .node id => id < n
  | .root => True

/-- Every edge of a tree ends at one of its nodes or at its root. -/
structure SearchTree.Closed (t : SearchTree) : Prop where
  root_edges : ∀ e ∈ t.rootEdges, e.target.Within t.nodes.length
  node_edges : ∀ n ∈ t.nodes, ∀ e ∈ n.edges, e.target.Within t.nodes.length

namespace Codec

variable {c : Codec} {role : Role}

/-- A node that a level counts is one of the tree's. -/
theorem descent_within {t : Tier} (ht : t ∈ c.tiers) {i : Nat} (hi : i < t.count) :
    (c.descent role t i).target.Within (c.tree role).nodes.length := by
  obtain ⟨hp, hl⟩ := has_of_tier ht hi
  obtain ⟨k, -, rfl⟩ := mem_tiers ht
  exact (List.getElem?_eq_some_iff.1 (c.node_at role hp hl)).1

theorem descents_within {below : Option Tier} (hb : ∀ t, below = some t → t ∈ c.tiers) (i : Nat)
    {e : Edge} (he : e ∈ c.descents role below i) :
    e.target.Within (c.tree role).nodes.length := by
  cases below with
  | none => cases he
  | some t =>
    obtain ⟨j, hj, rfl⟩ := List.mem_map.1 he
    have hlt : j < t.count := by
      have := List.mem_range'_1.1 hj
      omega
    exact descent_within (hb t rfl) hlt

/-- The trees of a codec are closed. -/
theorem tree_closed (c : Codec) (role : Role) : (c.tree role).Closed where
  root_edges e he := by
    simp only [tree] at he
    split at he
    · cases he
    · obtain ⟨i, hi, rfl⟩ := List.mem_map.1 he
      exact descent_within (List.mem_of_getLast? ‹_›) (List.mem_range.1 hi)
  node_edges n hn e he := by
    obtain ⟨b, t, i, hb, -, -, rfl⟩ := mem_nodes hn
    rcases List.mem_append.1 he with he | he
    · refine descents_within ?_ i he
      rintro u rfl
      rcases hb with h | ⟨w, hw, h⟩
      · cases h
      · exact Option.some.inj h ▸ hw
    · obtain ⟨k, -, rfl⟩ := List.mem_map.1 he
      trivial

end Codec

/-! ## Layers -/

namespace Layer

theorem resolve_lt {t : SearchTree} {base root : Nat} (hr : root < base + t.nodes.length)
    {target : Target} (ht : target.Within t.nodes.length) :
    resolve base root target < base + t.nodes.length := by
  cases target with
  | node id => exact Nat.add_lt_add_left ht base
  | root => exact hr

/-- Splicing in a closed tree keeps a layer closed. -/
theorem Closed.splice {l : Layer} (h : l.Closed) {t : SearchTree} (ht : t.Closed) {root : Nat}
    (hr : root < l.states.length) : (l.splice t root).Closed := by
  have hlen : (l.splice t root).states.length = l.states.length + t.nodes.length := by
    rw [states_splice, List.length_append, List.length_map]
  have hroot : root < l.states.length + t.nodes.length := Nat.lt_add_right _ hr
  intro u hu
  rw [hlen]
  rw [transitions_splice] at hu
  rcases List.mem_append.1 hu with hu | hu
  · rcases List.mem_append.1 hu with hu | hu
    · have := h u hu
      omega
    · obtain ⟨e, he, rfl⟩ := List.mem_map.1 hu
      exact ⟨hroot, resolve_lt hroot (ht.root_edges e he)⟩
  · obtain ⟨⟨n, id⟩, hn, hu⟩ := List.mem_flatMap.1 hu
    obtain ⟨e, he, rfl⟩ := List.mem_map.1 hu
    obtain ⟨hid, hnode⟩ := List.mem_zipIdx' hn
    have hmem : n ∈ t.nodes := hnode ▸ List.getElem_mem hid
    exact ⟨Nat.add_lt_add_left hid _, resolve_lt hroot (ht.node_edges n hmem e he)⟩

theorem toController?_of_closed {l : Layer} (h : l.Closed) :
    ∃ k, l.toController? = some k :=
  ⟨_, toController?_eq_some_iff.2 ⟨h, rfl⟩⟩

end Layer

theorem scaffold_closed (name : String) (wd : Bool) : (scaffold name wd).Closed := by
  have hlen : (scaffold name wd).states.length = 3 := rfl
  rw [Layer.Closed, hlen, forall_transitions_scaffold]
  decide

/-- **Endpoints.** Every transition of a codec's layers runs between two states of its layer. -/
theorem Codec.layers_closed (c : Codec) (layout : LayerLayout) (wd : Bool) :
    ∀ l ∈ (c.assemble layout wd).layers, l.Closed := by
  -- a root must be there when a tree is spliced in below it
  have hboth : ∀ l ∈ (c.assemble layout wd).layers, 3 ≤ l.states.length ∧ l.Closed := by
    refine forall_layers (fun name => ⟨Nat.le_refl 3, scaffold_closed name wd⟩) ?_ layout
    rintro l role ⟨hlen, hl⟩
    have hroot := Nat.lt_of_lt_of_le (Scaffold.rootOf_lt role) hlen
    refine ⟨?_, hl.splice (c.tree_closed role) hroot⟩
    rw [Layer.states_splice, List.length_append]
    exact Nat.le_add_right_of_le hlen
  exact fun l hl => (hboth l hl).2

end AvatarBits
