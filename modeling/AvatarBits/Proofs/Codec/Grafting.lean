import AvatarBits.Codec.Assembly
import AvatarBits.Proofs.Codec.Levels

/-!
# Codec trees inside layers

What a layer does with a tree does not depend on where in the layer the tree
stands. `Layer.Hosts` says that a tree stands below its root from some position
on, and everything about running the tree is stated against it.

Results:
* `Layer.transitionsFrom_splice`: which transitions leave a state after splicing.
* `Codec.forall_layers`: what all layers of a codec have.
* `Codec.encoder_hosts`, `Codec.decoder_hosts`: the layers of a codec host its trees.
* `Codec.encodeLayer_ready`, `Codec.decodeLayer_ready`: a layer with one tree does nothing at the
  other root.
-/
namespace AvatarBits

namespace Scaffold

/-- Position of the root of a tree. -/
def rootOf : Role → Nat
  | .encode => localRoot
  | .decode => remoteRoot

/-- Name of the root of a tree. -/
def rootName : Role → String
  | .encode => "local"
  | .decode => "remote"

theorem rootOf_lt (role : Role) : rootOf role < 3 := by cases role <;> decide

theorem entry_ne_rootOf (role : Role) : entry ≠ rootOf role := by cases role <;> decide

theorem rootOf_inj {r s : Role} (h : rootOf r = rootOf s) : r = s := by
  cases r <;> cases s <;> first | rfl | cases h

end Scaffold

namespace Layer

/-! ## Splicing -/

theorem source_of_mem {base root source : Nat} {edges : List Edge} {t : LayerTransition}
    (h : t ∈ transitionsOf base root source edges) : t.source = source := by
  obtain ⟨e, -, rfl⟩ := List.mem_map.1 h
  rfl

theorem filter_transitionsOf (base root source id : Nat) (edges : List Edge) :
    (transitionsOf base root source edges).filter (·.source == id)
      = if source = id then transitionsOf base root source edges else [] := by
  by_cases h : source = id
  · rw [if_pos h]
    exact List.filter_eq_self.2 fun t ht => beq_iff_eq.2 ((source_of_mem ht).trans h)
  · rw [if_neg h]
    exact List.filter_eq_nil_iff.2 fun t ht e => h ((source_of_mem ht).symm.trans (beq_iff_eq.1 e))

/-- Of lists by position, the one at a position. -/
theorem flatMap_zipIdx_at {α β : Type} (xs : List α) (f : α → List β) (b k i : Nat) :
    ((xs.zipIdx k).flatMap fun p => if b + p.2 = i then f p.1 else [])
      = if b + k ≤ i then (xs[i - (b + k)]?).elim [] f else [] := by
  induction xs generalizing k with
  | nil => simp
  | cons x xs ih =>
    rw [List.zipIdx_cons, List.flatMap_cons, ih (k + 1)]
    rcases Nat.lt_trichotomy (b + k) i with h | h | h
    · have hs : i - (b + k) = i - (b + (k + 1)) + 1 := by omega
      rw [if_neg (by omega), if_pos (by omega), if_pos (by omega), hs, List.getElem?_cons_succ,
        List.nil_append]
    · rw [if_pos h, if_neg (by omega), if_pos (by omega), h, Nat.sub_self,
        List.getElem?_cons_zero, List.append_nil, Option.elim_some]
    · rw [if_neg (by omega), if_neg (by omega), if_neg (by omega), List.append_nil]

/-- After splicing, a state is left by what left it before, the edges of the tree's root if it is
that root, and the edges of its node if it has one. -/
theorem transitionsFrom_splice (l : Layer) (t : SearchTree) (root id : Nat) :
    (l.splice t root).transitionsFrom id = l.transitionsFrom id
      ++ (if root = id then transitionsOf l.states.length root id t.rootEdges else [])
      ++ if l.states.length ≤ id then
          (t.nodes[id - l.states.length]?).elim []
            fun n => transitionsOf l.states.length root id n.edges
        else [] := by
  unfold transitionsFrom
  rw [transitions_splice, List.filter_append, List.filter_append, filter_transitionsOf,
    List.filter_flatMap]
  congr 1
  · congr 1
    by_cases h : root = id
    · rw [if_pos h, if_pos h, h]
    · rw [if_neg h, if_neg h]
  · have he : ∀ x : TreeNode × Nat,
        (transitionsOf l.states.length root (l.states.length + x.2) x.1.edges).filter
            (·.source == id)
          = if l.states.length + x.2 = id then
              transitionsOf l.states.length root id x.1.edges else [] := by
      intro x
      rw [filter_transitionsOf]
      by_cases h : l.states.length + x.2 = id
      · rw [if_pos h, if_pos h, h]
      · rw [if_neg h, if_neg h]
    simp only [he]
    exact flatMap_zipIdx_at t.nodes (fun n => transitionsOf l.states.length root id n.edges)
      l.states.length 0 id

theorem states_splice_left (l : Layer) (t : SearchTree) (root : Nat) {id : Nat}
    (h : id < l.states.length) : (l.splice t root).states[id]? = l.states[id]? := by
  simp [states_splice, List.getElem?_append_left h]

end Layer

namespace Codec

/-! ## Places in a layer -/

/-- The position of a place's state, for a tree whose first node is at `base`. -/
def address (c : Codec) (role : Role) (base : Nat) (p : Place) : Nat :=
  if p.level < c.depth then base + c.number p else Scaffold.rootOf role

/-- The state of a place. -/
def stateAt (c : Codec) (role : Role) (writeDefaults : Bool) (p : Place) : LayerState :=
  if p.level < c.depth then
    ⟨p.name role, writeDefaults, if p.level = 0 then c.leafActions role p.index else [],
      role = .encode⟩
  else ⟨Scaffold.rootName role, writeDefaults, [], false⟩

end Codec

namespace Layer

/-- A layer starts with a choice between two roots. -/
structure Begins (l : Layer) : Prop where
  default_eq : l.defaultState = Scaffold.entry
  entry_at : l.states[Scaffold.entry]? = some ⟨"entry", l.writeDefaults, [], false⟩
  choice : l.transitionsFrom Scaffold.entry =
    [⟨Scaffold.entry, Scaffold.localRoot, [⟨.isSet, isLocalName, 0⟩], 0, false⟩,
      ⟨Scaffold.entry, Scaffold.remoteRoot, [⟨.notSet, isLocalName, 0⟩], 0, false⟩]
  length_ge : 3 ≤ l.states.length

/-- A codec's tree stands below its root, its nodes from `base` on. -/
structure Hosts (l : Layer) (c : Codec) (role : Role) (base : Nat) : Prop extends l.Begins where
  base_ge : 3 ≤ base
  state_at : ∀ p, c.Has p →
    l.states[c.address role base p]? = some (c.stateAt role l.writeDefaults p)
  edges_at : ∀ p, c.Has p → l.transitionsFrom (c.address role base p) =
    transitionsOf base (Scaffold.rootOf role) (c.address role base p) (c.edgesAt role p)

/-- A tree can be spliced in below its root: neither the root nor any state to come is left yet. -/
structure Ready (l : Layer) (role : Role) : Prop extends l.Begins where
  root_at : l.states[Scaffold.rootOf role]? =
    some ⟨Scaffold.rootName role, l.writeDefaults, [], false⟩
  root_idle : l.transitionsFrom (Scaffold.rootOf role) = []
  rest_idle : ∀ id, l.states.length ≤ id → l.transitionsFrom id = []

theorem Begins.splice {l : Layer} (h : l.Begins) (t : SearchTree) (role : Role) :
    (l.splice t (Scaffold.rootOf role)).Begins where
  default_eq := h.default_eq
  entry_at := by
    rw [l.states_splice_left _ _ (by have := h.length_ge; unfold Scaffold.entry; omega)]
    exact h.entry_at
  choice := by
    have := h.length_ge
    rw [transitionsFrom_splice, if_neg (Scaffold.entry_ne_rootOf role).symm,
      if_neg (by unfold Scaffold.entry; omega), List.append_nil, List.append_nil, h.choice]
  length_ge := by
    have := h.length_ge
    rw [states_splice, List.length_append]
    omega

/-- Splicing a tree in below its root makes a layer host it. -/
theorem Ready.hosts {l : Layer} {role : Role} (h : l.Ready role) (c : Codec) :
    (l.splice (c.tree role) (Scaffold.rootOf role)).Hosts c role l.states.length where
  toBegins := h.toBegins.splice _ _
  base_ge := h.length_ge
  state_at p hp := by
    unfold Codec.address Codec.stateAt
    by_cases hl : p.level < c.depth
    · rw [if_pos hl, if_pos hl, states_splice, List.getElem?_append_right (Nat.le_add_right _ _),
        Nat.add_sub_cancel_left, List.getElem?_map, c.node_at role hp hl]
      rfl
    · have := h.length_ge
      have := Scaffold.rootOf_lt role
      rw [if_neg hl, if_neg hl, l.states_splice_left _ _ (by omega)]
      exact h.root_at
  edges_at p hp := by
    have := h.length_ge
    have := Scaffold.rootOf_lt role
    unfold Codec.address
    by_cases hl : p.level < c.depth
    · rw [if_pos hl, transitionsFrom_splice, h.rest_idle _ (Nat.le_add_right _ _),
        if_neg (by omega), if_pos (Nat.le_add_right _ _), Nat.add_sub_cancel_left,
        c.node_at role hp hl, Option.elim_some, c.node_edges role hl]
      rfl
    · rw [if_neg hl, transitionsFrom_splice, h.root_idle, if_pos rfl, if_neg (by omega),
        List.nil_append, List.append_nil, c.rootEdges_eq role,
        Codec.eq_root hp (Nat.le_antisymm hp.1 (Nat.le_of_not_lt hl))]

/-- Splicing in a tree below the other root leaves a root ready. -/
theorem Ready.splice {l : Layer} {role : Role} (h : l.Ready role) {other : Role} (hr : role ≠ other)
    (t : SearchTree) : (l.splice t (Scaffold.rootOf other)).Ready role where
  toBegins := h.toBegins.splice _ _
  root_at := by
    have := h.length_ge
    have := Scaffold.rootOf_lt role
    rw [l.states_splice_left _ _ (by omega)]
    exact h.root_at
  root_idle := by
    have := h.length_ge
    have := Scaffold.rootOf_lt role
    rw [transitionsFrom_splice, h.root_idle, if_neg fun e => hr (Scaffold.rootOf_inj e).symm,
      if_neg (by omega)]
    rfl
  rest_idle id hid := by
    have := h.length_ge
    have := Scaffold.rootOf_lt other
    rw [states_splice, List.length_append, List.length_map] at hid
    rw [transitionsFrom_splice, h.rest_idle id (by omega), if_neg (by omega), if_pos (by omega),
      List.getElem?_eq_none (by omega)]
    rfl

/-- Splicing in another tree leaves a hosted one as it is. -/
theorem Hosts.splice {l : Layer} {c : Codec} {role : Role} {base : Nat} (h : l.Hosts c role base)
    {other : Role} (hr : role ≠ other) (t : SearchTree) :
    (l.splice t (Scaffold.rootOf other)).Hosts c role base where
  toBegins := h.toBegins.splice _ _
  base_ge := h.base_ge
  state_at p hp := by
    have hs := h.state_at p hp
    rw [l.states_splice_left _ _ (List.getElem?_eq_some_iff.1 hs).1, hs]
    rfl
  edges_at p hp := by
    have hlt := (List.getElem?_eq_some_iff.1 (h.state_at p hp)).1
    have hne : Scaffold.rootOf other ≠ c.address role base p := by
      have := h.base_ge
      have := Scaffold.rootOf_lt other
      unfold Codec.address
      split
      · omega
      · exact fun e => hr (Scaffold.rootOf_inj e).symm
    rw [transitionsFrom_splice, if_neg hne, if_neg (by omega), List.append_nil, List.append_nil]
    exact h.edges_at p hp

end Layer

/-! ## The layers of a codec -/

theorem scaffold_ready (name : String) (wd : Bool) (role : Role) :
    (scaffold name wd).Ready role where
  default_eq := rfl
  entry_at := rfl
  choice := rfl
  length_ge := Nat.le_refl 3
  root_at := by cases role <;> rfl
  root_idle := by cases role <;> rfl
  rest_idle id h := by
    have hne : Scaffold.entry ≠ id := Nat.ne_of_lt (Nat.lt_of_lt_of_le (by decide : 0 < 3) h)
    refine List.filter_eq_nil_iff.2 (forall_transitions_scaffold.2 ⟨?_, ?_⟩) <;>
      exact fun e => hne (beq_iff_eq.1 e)

namespace Codec

/-- What scaffolds have and splicing in a codec's trees keeps, the layers of the codec have. -/
theorem forall_layers {c : Codec} {wd : Bool} {P : Layer → Prop}
    (hscaffold : ∀ name, P (scaffold name wd))
    (hsplice : ∀ l role, P l → P (l.splice (c.tree role) (Scaffold.rootOf role)))
    (layout : LayerLayout) : ∀ l ∈ (c.assemble layout wd).layers, P l := by
  have hone : ∀ name role, P ((scaffold name wd).splice (c.tree role) (Scaffold.rootOf role)) :=
    fun name role => hsplice _ role (hscaffold name)
  cases layout with
  | fused => exact List.forall_mem_singleton.2 (hsplice _ .decode (hone _ .encode))
  | split =>
    exact List.forall_mem_cons.2 ⟨hone _ .encode, List.forall_mem_singleton.2 (hone _ .decode)⟩

theorem encodeLayer_ready (c : Codec) (wd : Bool) : (c.encodeLayer wd).Ready .decode :=
  (scaffold_ready _ wd .decode).splice (show Role.decode ≠ Role.encode by decide) _

theorem decodeLayer_ready (c : Codec) (wd : Bool) : (c.decodeLayer wd).Ready .encode :=
  (scaffold_ready _ wd .encode).splice (show Role.encode ≠ Role.decode by decide) _

theorem encodeLayer_hosts (c : Codec) (wd : Bool) : (c.encodeLayer wd).Hosts c .encode 3 :=
  (scaffold_ready _ wd .encode).hosts c

theorem decodeLayer_hosts (c : Codec) (wd : Bool) : (c.decodeLayer wd).Hosts c .decode 3 :=
  (scaffold_ready _ wd .decode).hosts c

/-- The layer that encodes hosts the encode tree. -/
theorem encoder_hosts (c : Codec) (layout : LayerLayout) (wd : Bool) :
    ∃ base, (c.encoder layout wd).Hosts c .encode base := by
  cases layout with
  | fused =>
    have h := (scaffold_ready s!"{c.parameter}_codec" wd .encode).hosts c
    have hd : Role.encode ≠ .decode := by decide
    exact ⟨_, h.splice hd (c.tree .decode)⟩
  | split => exact ⟨3, c.encodeLayer_hosts wd⟩

/-- The layer that decodes hosts the decode tree. -/
theorem decoder_hosts (c : Codec) (layout : LayerLayout) (wd : Bool) :
    ∃ base, (c.decoder layout wd).Hosts c .decode base := by
  cases layout with
  | fused =>
    have hd : Role.decode ≠ .encode := by decide
    have h := (scaffold_ready s!"{c.parameter}_codec" wd .decode).splice hd (c.tree .encode)
    exact ⟨_, h.hosts c⟩
  | split => exact ⟨3, c.decodeLayer_hosts wd⟩

end Codec

end AvatarBits
