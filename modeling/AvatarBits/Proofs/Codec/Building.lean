import AvatarBits.Proofs.Codec.Endpoints
import AvatarBits.Proofs.Simulation.Stepping

/-!
# Layers as they are built

A layer grows by states, by transitions between states that it has, and by whole
trees, each below one of its states. Several trees may come into one layer, one
after another and below different states. A tree numbers its nodes from zero, and
the layer puts them behind the states that it has, so every number is shifted by
how many these are; and a node's edges wait until all nodes have a state.

* `Layer.Built`: the layers that can be built.
* `LayerTransition.Carries`, `Layer.Embeds`: a tree stands in a layer edge by edge and node by node.

Results:
* `Layer.splice_embeds`: splicing keeps what was there and embeds the tree behind it.
* `Layer.Built.closed`: transitions run between states, however a layer was built.
* `Layer.Closed.run_known`: a run of such a layer is never at a loss for a state.
* `Layer.Built.intact`: the three together, and that the layer turns into one of a controller.
-/
namespace AvatarBits

/-! ## Trees in layers -/

/-- Number of a tree's edges that come before those of a node: the edges of the root, and those of
the nodes with smaller numbers. -/
def SearchTree.edgesBefore (t : SearchTree) (id : Nat) : Nat :=
  t.rootEdges.length + ((t.nodes.take id).flatMap TreeNode.edges).length

/-- A transition from a state does what an edge does, for a tree whose first node is at `base`. -/
structure LayerTransition.Carries (u : LayerTransition) (e : Edge) (base root source : Nat) :
    Prop where
  source_eq : u.source = source
  to_node : ∀ id, e.target = .node id → u.destination = base + id
  to_root : e.target = .root → u.destination = root
  conditions_eq : u.conditions = e.conditions
  instant : u.duration = 0 ∧ u.hasExitTime = false

namespace Layer

/-- A layer goes on in another with a tree: behind its own states stand those of the nodes, by their
numbers, and behind its own transitions those of the edges, first of the root and then of one node
after the other. -/
structure Embeds (l : Layer) (t : SearchTree) (root : Nat) (l' : Layer) : Prop where
  states_prefix : l.states <+: l'.states
  transitions_prefix : l.transitions <+: l'.transitions
  length_states : l'.states.length = l.states.length + t.nodes.length
  length_transitions : l'.transitions.length = l.transitions.length + t.edgeCount
  state_at : ∀ id n, t.nodes[id]? = some n → ∃ s, l'.states[l.states.length + id]? = some s
    ∧ s.name = n.name ∧ s.actions = n.actions ∧ s.writeDefaults = l.writeDefaults
    ∧ (s.localOnly = true ↔ t.role = .encode)
  root_edge_at : ∀ k e, t.rootEdges[k]? = some e →
    ∃ u, l'.transitions[l.transitions.length + k]? = some u
      ∧ u.Carries e l.states.length root root
  node_edge_at : ∀ id n k e, t.nodes[id]? = some n → n.edges[k]? = some e →
    ∃ u, l'.transitions[l.transitions.length + (t.edgesBefore id + k)]? = some u
      ∧ u.Carries e l.states.length root (l.states.length + id)

/-! ## Splicing -/

theorem carries_resolve (e : Edge) (base root source : Nat) :
    (⟨source, resolve base root e.target, e.conditions, 0, false⟩ : LayerTransition).Carries e base
      root source where
  source_eq := rfl
  to_node id h := by simp only [h, resolve]
  to_root h := by simp only [h, resolve]
  conditions_eq := rfl
  instant := ⟨rfl, rfl⟩

theorem getElem?_transitionsOf {base root source k : Nat} {edges : List Edge} {e : Edge}
    (he : edges[k]? = some e) : (transitionsOf base root source edges)[k]?
      = some ⟨source, resolve base root e.target, e.conditions, 0, false⟩ := by
  simp [transitionsOf, he]

/-- The transitions of a tree's nodes, in their order. -/
def nodeTransitions (base root : Nat) (ns : List (TreeNode × Nat)) : List LayerTransition :=
  ns.flatMap fun (n, id) => transitionsOf base root (base + id) n.edges

theorem length_nodeTransitions (base root : Nat) (ns : List TreeNode) (start : Nat) :
    (nodeTransitions base root (ns.zipIdx start)).length
      = (ns.flatMap TreeNode.edges).length := by
  induction ns generalizing start with
  | nil => rfl
  | cons n ns ih =>
    have htail := ih (start + 1)
    unfold nodeTransitions at htail ⊢
    simp [List.zipIdx_cons, transitionsOf] at htail ⊢
    exact htail

/-- The transition of a node's edge stands behind those of the nodes before it. -/
theorem getElem?_nodeTransitions {base root start id k : Nat} {ns : List TreeNode} {n : TreeNode}
    {e : Edge} (hn : ns[id]? = some n) (he : n.edges[k]? = some e) :
    (nodeTransitions base root (ns.zipIdx start))[((ns.take id).flatMap TreeNode.edges).length + k]?
      = some ⟨base + (start + id), resolve base root e.target, e.conditions, 0, false⟩ := by
  have hk := (List.getElem?_eq_some_iff.1 he).1
  induction ns generalizing start id with
  | nil => cases hn
  | cons m ms ih =>
    have hhead : nodeTransitions base root ((m :: ms).zipIdx start)
        = transitionsOf base root (base + start) m.edges
          ++ nodeTransitions base root (ms.zipIdx (start + 1)) := rfl
    have hlen : (transitionsOf base root (base + start) m.edges).length = m.edges.length :=
      List.length_map _
    rw [hhead]
    cases id with
    | zero =>
      obtain rfl : m = n := Option.some.inj hn
      have hk' : k < (transitionsOf base root (base + start) m.edges).length := hlen ▸ hk
      simp only [List.take_zero, List.flatMap_nil, List.length_nil, Nat.zero_add, Nat.add_zero]
      rw [List.getElem?_append_left hk', getElem?_transitionsOf he]
    | succ id =>
      have hskip : (((m :: ms).take (id + 1)).flatMap TreeNode.edges).length + k
          = m.edges.length + (((ms.take id).flatMap TreeNode.edges).length + k) := by
        rw [List.take_succ_cons, List.flatMap_cons, List.length_append, Nat.add_assoc]
      have hnumber : start + 1 + id = start + (id + 1) := by omega
      rw [hskip, ← hlen, List.getElem?_append_right (Nat.le_add_right _ _),
        Nat.add_sub_cancel_left, ← hnumber]
      exact ih hn

/-- What splicing appends: the transitions of the root's edges, and those of the nodes. -/
theorem transitions_splice_eq (l : Layer) (t : SearchTree) (root : Nat) :
    (l.splice t root).transitions = l.transitions
      ++ (transitionsOf l.states.length root root t.rootEdges
        ++ nodeTransitions l.states.length root t.nodes.zipIdx) := by
  rw [transitions_splice, List.append_assoc]
  rfl

/-- Splicing keeps what was there and embeds the tree behind it. -/
theorem splice_embeds (l : Layer) (t : SearchTree) (root : Nat) :
    l.Embeds t root (l.splice t root) where
  states_prefix := List.prefix_append _ _
  transitions_prefix := by
    rw [transitions_splice_eq]
    exact List.prefix_append _ _
  length_states := by simp [states_splice]
  length_transitions := by
    rw [transitions_splice_eq, List.length_append, List.length_append, length_nodeTransitions,
      transitionsOf, List.length_map, SearchTree.edgeCount]
  state_at id n hn := by
    refine ⟨l.stateOf t.role n, ?_, rfl, rfl, rfl, decide_eq_true_iff⟩
    rw [states_splice, List.getElem?_append_right (Nat.le_add_right _ _), Nat.add_sub_cancel_left,
      List.getElem?_map, hn, Option.map_some]
  root_edge_at k e he := by
    refine ⟨_, ?_, carries_resolve e l.states.length root root⟩
    have hk : k < (transitionsOf l.states.length root root t.rootEdges).length := by
      simpa [transitionsOf] using (List.getElem?_eq_some_iff.1 he).1
    rw [transitions_splice_eq, List.getElem?_append_right (Nat.le_add_right _ _),
      Nat.add_sub_cancel_left, List.getElem?_append_left hk, getElem?_transitionsOf he]
  node_edge_at id n k e hn he := by
    refine ⟨_, ?_, carries_resolve e l.states.length root (l.states.length + id)⟩
    have hlen : (transitionsOf l.states.length root root t.rootEdges).length
        = t.rootEdges.length := List.length_map _
    have hat : (nodeTransitions l.states.length root t.nodes.zipIdx)[
        ((t.nodes.take id).flatMap TreeNode.edges).length + k]? = _ :=
      getElem?_nodeTransitions hn he
    rw [transitions_splice_eq, List.getElem?_append_right (Nat.le_add_right _ _),
      Nat.add_sub_cancel_left, SearchTree.edgesBefore, Nat.add_assoc, ← hlen,
      List.getElem?_append_right (Nat.le_add_right _ _), Nat.add_sub_cancel_left, hat, Nat.zero_add]

/-! ## Building -/

/-- The layers that can be built: an empty one, and from one that was built, the same with another
state, with a transition between two of its states, with a codec's tree below one of them, or with
another default state, wherever that is. -/
inductive Built : Layer → Prop
  | empty (name : String) (writeDefaults : Bool) : Built { name, writeDefaults }
  | addState {l : Layer} (name : String) : l.Built → Built (l.addState name)
  | addTransition {l : Layer} {source destination : Nat} (conditions : List Condition) :
    l.Built → source < l.states.length → destination < l.states.length →
    Built (l.addTransition source destination conditions)
  | splice {l : Layer} {root : Nat} (c : Codec) (role : Role) :
    l.Built → root < l.states.length → Built (l.splice (c.tree role) root)
  | startAt {l : Layer} (position : Nat) : l.Built → Built { l with defaultState := position }

/-- Every transition of a layer that was built runs between two of its states. -/
theorem Built.closed {l : Layer} (h : l.Built) : l.Closed := by
  induction h with
  | empty => simp [Closed]
  | addState name _ ih =>
    intro t ht
    have := ih t ht
    simp only [Layer.addState, List.length_append, List.length_cons]
    omega
  | addTransition conditions _ hs hd ih =>
    intro t ht
    rcases List.mem_append.1 ht with ht | ht
    · exact ih t ht
    · obtain rfl := List.mem_singleton.1 ht
      exact ⟨hs, hd⟩
  | splice c role _ hr ih => exact ih.splice (c.tree_closed role) hr
  | startAt _ _ ih => exact ih

end Layer

/-! ## Running -/

/-- What fails in writing is an action that cannot be performed. -/
theorem perform_ne_unknownState (state name : String) (id : Nat) (actions : List DriverAction)
    (s : Store) : (perform state actions s).2 ≠ some (.unknownState name id) := by
  induction actions generalizing s with
  | nil => simp [perform]
  | cons a actions ih =>
    rw [perform]
    split
    · exact ih _
    · simp

namespace Machine

/-- Entering a state that is there fails only if it cannot be written what the state writes. -/
theorem enter_known {l : Layer} {dest : Nat} (h : dest < l.states.length) (i : Instance)
    (name : String) (id : Nat) :
    ((ofLayer l).enter dest i).2 ≠ some (.unknownState name id) := by
  unfold enter
  simp only [ofLayer, List.getElem?_toArray, List.getElem?_eq_getElem h]
  split
  · simp
  · exact perform_ne_unknownState _ name id _ _

end Machine

/-- A layer whose transitions run between its states, and that starts at one of them, is never at a
loss for a state. -/
theorem Layer.Closed.run_known {l : Layer} (h : l.Closed) (hd : l.defaultState < l.states.length)
    (i : Instance) (name : String) (id : Nat) :
    ((Machine.ofLayer l).run i).2 ≠ .error (.unknownState name id) := by
  have hsettle : ∀ budget i, ((Machine.ofLayer l).settle budget 0 i).2
      ≠ .error (.unknownState name id) := by
    intro budget i hrun
    rcases Machine.fires_of_error (Prod.ext rfl hrun) with h' | ⟨_, k, dest, _, _, hnext, he⟩
    · obtain ⟨_, _, _, he⟩ := h'
      cases he
    · obtain ⟨t, ht, -, rfl, -⟩ := Machine.exists_of_next? hnext
      exact Machine.enter_known (h t ht).2 k name id (congrArg Prod.snd he)
  intro hrun
  unfold Machine.run at hrun
  split at hrun
  · exact hsettle _ _ hrun
  · split at hrun
    · rename_i he
      obtain rfl := Except.error.inj hrun
      exact Machine.enter_known hd _ name id (congrArg Prod.snd he)
    · exact hsettle _ _ hrun

namespace Layer

/-- **Building.** However a layer was built, its transitions run between its states; a codec's tree
that is spliced in below one of them is embedded behind what was there, and the layer was built
again; it turns into a layer of a controller; and if it starts at one of its states, then no run,
whatever the instance, is at a loss for a state. -/
theorem Built.intact {l : Layer} (h : l.Built) :
    (∀ t ∈ l.transitions, t.source < l.states.length ∧ t.destination < l.states.length)
    ∧ (∀ (c : Codec) (role : Role) (root : Nat), root < l.states.length →
      (l.splice (c.tree role) root).Built
        ∧ l.Embeds (c.tree role) root (l.splice (c.tree role) root))
    ∧ (∃ k, l.toController? = some k)
    ∧ (l.defaultState < l.states.length → ∀ (i : Instance) (name : String) (id : Nat),
      ((Machine.ofLayer l).run i).2 ≠ .error (.unknownState name id)) := by
  refine ⟨h.closed, ?_, toController?_of_closed h.closed, h.closed.run_known⟩
  intro c role root hr
  exact ⟨.splice c role h hr, l.splice_embeds _ root⟩

/-- A layer with the encode tree of one parameter below its first state. -/
def planted : Layer :=
  (({ name := "Graft", writeDefaults := true : Layer }.addState "root").addState "other").splice
    ((⟨"Pose", 6, by decide⟩ : Codec).tree .encode) 0

theorem planted_built : planted.Built :=
  .splice _ _ (.addState _ (.addState _ (.empty _ _))) (by decide)

/-- The decode tree of another parameter comes in below the second leaf of the first tree. Its own
second leaf is state twelve, and leads back to that leaf. -/
theorem Built.intact_planted :
    let hat : Codec := ⟨"Hat", 1, by decide⟩
    let grown := planted.splice (hat.tree .decode) 3
    (∃ s, grown.states[12]? = some s ∧ s.name = "decode_1" ∧ s.localOnly = false)
      ∧ (∃ u, grown.transitions[planted.transitions.length + 3]? = some u ∧ u.source = 12
        ∧ u.destination = 3)
      ∧ (∃ k, grown.toController? = some k)
      ∧ ∀ (i : Instance) (name : String) (id : Nat),
        ((Machine.ofLayer grown).run i).2 ≠ .error (.unknownState name id) := by
  intro hat grown
  have hlen : planted.states.length = 11 := by decide +kernel
  obtain ⟨-, hsplice, -, -⟩ := planted_built.intact
  obtain ⟨hgrown, hembeds⟩ := hsplice hat .decode 3 (by rw [hlen]; decide)
  obtain ⟨-, -, hconverts, hknown⟩ := hgrown.intact
  have hleaf : (hat.tree .decode).nodes[1]? = some (hat.node .decode none 0 1) := by decide +kernel
  have hexit : (hat.node .decode none 0 1).edges[0]? = some ⟨.root, [hat.bitIs 0 false]⟩ := by
    decide +kernel
  refine ⟨?_, ?_, hconverts, hknown ?_⟩
  · obtain ⟨s, hs, hname, -, -, hlocal⟩ := hembeds.state_at 1 _ hleaf
    rw [hlen] at hs
    refine ⟨s, hs, hname.trans (by decide +kernel), ?_⟩
    rw [← Bool.not_eq_true, hlocal]
    decide
  · obtain ⟨u, hu, hcarries⟩ := hembeds.node_edge_at 1 _ 0 _ hleaf hexit
    have hplace : (hat.tree .decode).edgesBefore 1 + 0 = 3 := by decide +kernel
    rw [hplace] at hu
    refine ⟨u, hu, ?_, hcarries.to_root rfl⟩
    rw [hcarries.source_eq, hlen]
  · rw [hembeds.length_states, hlen]
    exact Nat.zero_lt_of_lt (Nat.lt_add_right _ (by decide : 0 < 11))

end Layer

end AvatarBits
