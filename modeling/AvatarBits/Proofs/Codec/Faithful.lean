import AvatarBits.Proofs.Codec.Endpoints
import AvatarBits.Proofs.Codec.Names
import Mathlib.Data.List.Nodup

/-!
# What a layer of a controller tells

A generated layer has one list of transitions for all its states and knows states
by position. The layer of a controller that it turns into has a list for each
state and knows states by name. Nothing that matters is lost: as long as no two
states share a name, a name leads back to the position, and a state's list is
what left it, in the order in which transitions are tried. Only the flag of a state
without writes is not kept; it has no effect.

Names are distinct in every layer of a codec: a node's name gives the role of its
tree and its place there, and is not that of a state that a layer starts with.

* `Layer.Convertible`: names are distinct, and positions are those of states.
* `Layer.ToldBy`: a layer of a controller says what the generated one does.
* `Layer.Alike`: two generated layers do the same, state by state.

Results:
* `Layer.Convertible.told`: a convertible layer is told by what it turns into.
* `Layer.ToldBy.alike`: layers that are told by the same one are alike.
* `Codec.layers_convertible`: the layers of a codec are convertible.
* `Layer.toController?_lossless`: the three together.
-/
namespace AvatarBits

/-! ## Reading a machine -/

namespace StateMachine

/-- Position of the first state of a name. -/
def stateId? (m : StateMachine) (name : String) : Option Nat :=
  m.states.findIdx? (·.name == name)

/-- A transition at a position, with the position that its destination's name leads to. -/
def resolve? (m : StateMachine) (source : Nat) (t : Transition) : Option LayerTransition :=
  (t.destination.bind m.stateId?).map fun destination =>
    ⟨source, destination, t.conditions, t.duration, t.hasExitTime⟩

end StateMachine

/-- What a state's behaviours write, in order. -/
def State.written (s : State) : List DriverAction := s.behaviours.flatMap Behaviour.actions

/-- Whether the first driver of a state is local only, if it has one. -/
def State.localOnly? (s : State) : Option Bool :=
  s.behaviours.findSome? fun
    | .driver d => some d.localOnly
    | .other => none

/-! ## What is kept -/

/-- A state of a controller says what a generated one does. -/
structure LayerState.ToldBy (s : LayerState) (t : State) : Prop where
  name_eq : t.name = s.name
  writeDefaults_eq : t.writeDefaults = s.writeDefaults
  written_eq : t.written = s.actions
  localOnly_eq : s.actions ≠ [] → t.localOnly? = some s.localOnly

/-- Two generated states do the same; who makes the writes of one that has none is left open. -/
structure LayerState.Alike (s s' : LayerState) : Prop where
  name_eq : s.name = s'.name
  writeDefaults_eq : s.writeDefaults = s'.writeDefaults
  actions_eq : s.actions = s'.actions
  localOnly_eq : s.actions ≠ [] → s.localOnly = s'.localOnly

theorem LayerState.ToldBy.alike {s s' : LayerState} {t : State} (h : s.ToldBy t)
    (h' : s'.ToldBy t) : s.Alike s' where
  name_eq := h.name_eq.symm.trans h'.name_eq
  writeDefaults_eq := h.writeDefaults_eq.symm.trans h'.writeDefaults_eq
  actions_eq := h.written_eq.symm.trans h'.written_eq
  localOnly_eq hs := by
    have hs' : s'.actions ≠ [] := h'.written_eq ▸ h.written_eq ▸ hs
    exact Option.some.inj ((h.localOnly_eq hs).symm.trans (h'.localOnly_eq hs'))

namespace Layer

/-- The names of a layer's states, in order. -/
def names (l : Layer) : List String := l.states.map LayerState.name

/-- Distinct names, and positions that are those of states. -/
structure Convertible (l : Layer) : Prop where
  nodup_names : l.names.Nodup
  default_lt : l.defaultState < l.states.length
  closed : l.Closed

/-- A layer of a controller says what a generated one does: it has the same states in the same
order, each with the transitions that leave it, and its names lead to their positions. -/
structure ToldBy (l : Layer) (k : ControllerLayer) : Prop where
  name_eq : k.name = l.name
  machine_eq : k.machine.name = l.name
  synced_eq : k.syncedLayer = -1
  weight_eq : k.defaultWeight = l.defaultWeight
  default_eq : k.machine.defaultState.bind k.machine.stateId? = some l.defaultState
  length_eq : k.machine.states.length = l.states.length
  state_at : ∀ i s, l.states[i]? = some s → ∃ t, k.machine.states[i]? = some t ∧ s.ToldBy t
    ∧ t.transitions.map (k.machine.resolve? i) = (l.transitionsFrom i).map some

/-- Two generated layers do the same: their states are alike one by one, and each is left by the
same transitions in the same order. -/
structure Alike (l l' : Layer) : Prop where
  name_eq : l.name = l'.name
  weight_eq : l.defaultWeight = l'.defaultWeight
  default_eq : l.defaultState = l'.defaultState
  states_alike : List.Forall₂ LayerState.Alike l.states l'.states
  transitions_eq : ∀ i, l.transitionsFrom i = l'.transitionsFrom i

/-! ## Names lead to positions -/

/-- The machine that a layer turns into finds its states where the layer does. -/
theorem stateId?_toController (l : Layer) (name : String) :
    l.toController.machine.stateId? name = l.stateId? name := by
  have hnames : l.toController.machine.states.map State.name = l.names := by
    refine List.ext_getElem? fun i => ?_
    simp [toController, names, List.getElem?_mapIdx, Function.comp_def, stateValue]
  have hlayer : l.stateId? name = l.names.findIdx? (· == name) := by
    rw [names, List.findIdx?_map]
    rfl
  rw [hlayer, ← hnames, List.findIdx?_map]
  rfl

/-- A name that no other state has leads to its state. -/
theorem stateId?_name {l : Layer} (h : l.names.Nodup) {i : Nat} {s : LayerState}
    (hs : l.states[i]? = some s) : l.stateId? s.name = some i := by
  obtain ⟨hi, hat⟩ := List.getElem?_eq_some_iff.1 hs
  refine List.findIdx?_eq_some_iff_getElem.2 ⟨hi, beq_iff_eq.2 (hat ▸ rfl), fun j hj e => ?_⟩
  have hname : l.names[j]? = l.names[i]? := by
    rw [names, List.getElem?_map, List.getElem?_map, hs,
      List.getElem?_eq_getElem (Nat.lt_trans hj hi)]
    exact congrArg some (beq_iff_eq.1 e)
  have hj' : j < l.names.length := List.length_map LayerState.name ▸ Nat.lt_trans hj hi
  exact Nat.ne_of_lt hj ((List.getElem?_inj hj' h).1 hname)

/-! ## Conversion -/

/-- A transition leads back to its positions. -/
theorem Convertible.resolve {l : Layer} (h : l.Convertible) {i : Nat} {t : LayerTransition}
    (ht : t ∈ l.transitionsFrom i) :
    l.toController.machine.resolve? i (l.transitionValue t) = some t := by
  obtain ⟨hmem, hsource⟩ := List.mem_filter.1 ht
  obtain rfl := beq_iff_eq.1 hsource
  obtain ⟨s, hs⟩ : ∃ s, l.states[t.destination]? = some s :=
    ⟨_, List.getElem?_eq_getElem (h.closed t hmem).2⟩
  have hdestination : (l.transitionValue t).destination = some s.name := by
    rw [transitionValue, state?, hs]
    rfl
  rw [StateMachine.resolve?, hdestination, Option.bind_some, stateId?_toController,
    stateId?_name h.nodup_names hs]
  rfl

theorem stateValue_tells (l : Layer) (i : Nat) (s : LayerState) :
    s.ToldBy (l.stateValue i s) where
  name_eq := rfl
  writeDefaults_eq := rfl
  written_eq := LayerState.actions_behaviours s
  localOnly_eq h := by
    have hdriver : (l.stateValue i s).behaviours = [.driver ⟨s.localOnly, s.actions⟩] :=
      if_neg fun e => h (List.isEmpty_iff.1 e)
    rw [State.localOnly?, hdriver]
    rfl

/-- A convertible layer is told by what it turns into. -/
theorem Convertible.told {l : Layer} (h : l.Convertible) : l.ToldBy l.toController where
  name_eq := rfl
  machine_eq := rfl
  synced_eq := rfl
  weight_eq := rfl
  default_eq := by
    obtain ⟨s, hs⟩ : ∃ s, l.states[l.defaultState]? = some s :=
      ⟨_, List.getElem?_eq_getElem h.default_lt⟩
    have hname : l.toController.machine.defaultState = some s.name := by
      simp only [toController, state?, hs, Option.map_some]
    rw [hname, Option.bind_some, stateId?_toController, stateId?_name h.nodup_names hs]
  length_eq := List.length_mapIdx
  state_at i s hs := by
    refine ⟨l.stateValue i s, ?_, l.stateValue_tells i s, ?_⟩
    · simp only [toController, List.getElem?_mapIdx, hs, Option.map_some]
    · rw [stateValue, List.map_map]
      exact List.map_congr_left fun t ht => h.resolve ht

/-- No transition of a closed layer leaves a position without a state. -/
theorem Closed.transitionsFrom_eq_nil {l : Layer} (h : l.Closed) {i : Nat}
    (hi : l.states.length ≤ i) : l.transitionsFrom i = [] := by
  refine List.filter_eq_nil_iff.2 fun t ht e => ?_
  have hsource := (h t ht).1
  rw [beq_iff_eq.1 e] at hsource
  omega

/-- Layers that are told by the same one are alike. -/
theorem ToldBy.alike {l l' : Layer} {k : ControllerLayer} (h : l.ToldBy k) (h' : l'.ToldBy k)
    (hl : l.Closed) (hl' : l'.Closed) : l.Alike l' := by
  have hlen : l.states.length = l'.states.length := h.length_eq.symm.trans h'.length_eq
  have hat : ∀ i s s', l.states[i]? = some s → l'.states[i]? = some s' →
      s.Alike s' ∧ l.transitionsFrom i = l'.transitionsFrom i := by
    intro i s s' hs hs'
    obtain ⟨t, ht, htold, htransitions⟩ := h.state_at i s hs
    obtain ⟨t', ht', htold', htransitions'⟩ := h'.state_at i s' hs'
    obtain rfl := Option.some.inj (ht.symm.trans ht')
    exact ⟨htold.alike htold', List.map_injective_iff.2 (Option.some_injective _)
      (htransitions.symm.trans htransitions')⟩
  refine ⟨h.name_eq.symm.trans h'.name_eq, h.weight_eq.symm.trans h'.weight_eq,
    Option.some.inj (h.default_eq.symm.trans h'.default_eq), ?_, fun i => ?_⟩
  · refine List.forall₂_iff_get.2 ⟨hlen, fun i hi hi' => ?_⟩
    exact (hat i _ _ (List.getElem?_eq_getElem hi) (List.getElem?_eq_getElem hi')).1
  · rcases Nat.lt_or_ge i l.states.length with hi | hi
    · exact (hat i _ _ (List.getElem?_eq_getElem hi)
        (List.getElem?_eq_getElem (hlen ▸ hi))).2
    · rw [hl.transitionsFrom_eq_nil hi, hl'.transitionsFrom_eq_nil (hlen ▸ hi)]

/-! ## Names of a codec's layers -/

/-- No state is called like a node of a tree in a role. -/
def FreeOf (l : Layer) (role : Role) : Prop := ∀ p : Place, p.name role ∉ l.names

end Layer

namespace Codec

/-- The places on levels, level by level. -/
def places (ts : List Tier) : List Place :=
  ts.flatMap fun t => (List.range t.count).map (Place.mk t.level)

theorem names_nodes (c : Codec) (role : Role) (below : Option Tier) (ts : List Tier) :
    (c.nodes role below ts).map TreeNode.name = (places ts).map (Place.name role) := by
  induction ts generalizing below with
  | nil => rfl
  | cons t ts ih =>
    rw [nodes, places, List.flatMap_cons, List.map_append, List.map_append, ih, List.map_map,
      List.map_map]
    rfl

theorem names_tree (c : Codec) (role : Role) :
    (c.tree role).nodes.map TreeNode.name = (places c.tiers).map (Place.name role) :=
  c.names_nodes role none c.tiers

/-- No place is on two levels, or twice on one. -/
theorem nodup_places (c : Codec) : (places c.tiers).Nodup := by
  obtain ⟨n, -, htiers, -⟩ := c.tiers_spec
  refine List.nodup_flatMap.2 ⟨fun t _ => ?_, ?_⟩
  · exact List.nodup_range.map fun i j h => (Place.mk.inj h).2
  · rw [htiers, List.pairwise_map]
    refine List.pairwise_lt_range.imp fun {j k} hjk p hj hk => ?_
    obtain ⟨i, -, rfl⟩ := List.mem_map.1 hj
    obtain ⟨i', -, h⟩ := List.mem_map.1 hk
    exact Nat.ne_of_gt hjk (Place.mk.inj h).1

/-- The nodes of a tree have distinct names. -/
theorem nodup_node_names (c : Codec) (role : Role) :
    ((c.tree role).nodes.map TreeNode.name).Nodup := by
  rw [c.names_tree role]
  exact c.nodup_places.map fun p q h => (Place.name_inj h).2

end Codec

namespace Layer

variable {l : Layer} {c : Codec}

theorem names_splice (l : Layer) (tree : SearchTree) (root : Nat) :
    (l.splice tree root).names = l.names ++ tree.nodes.map TreeNode.name := by
  rw [names, states_splice, List.map_append, List.map_map]
  rfl

/-- Splicing in a tree keeps names distinct if none of its nodes is called like a state. -/
theorem nodup_names_splice (hl : l.names.Nodup) {role : Role} (hfree : l.FreeOf role)
    (root : Nat) : (l.splice (c.tree role) root).names.Nodup := by
  rw [names_splice]
  refine hl.append (c.nodup_node_names role) fun name hname hnode => ?_
  rw [c.names_tree role] at hnode
  obtain ⟨p, -, rfl⟩ := List.mem_map.1 hnode
  exact hfree p hname

/-- A tree takes no name from the nodes of the other role. -/
theorem FreeOf.splice {role other : Role} (hl : l.FreeOf role) (hr : role ≠ other) (root : Nat) :
    (l.splice (c.tree other) root).FreeOf role := by
  intro p hp
  rw [names_splice] at hp
  rcases List.mem_append.1 hp with hp | hp
  · exact hl p hp
  · rw [c.names_tree other] at hp
    obtain ⟨q, -, hq⟩ := List.mem_map.1 hp
    exact hr (Place.name_inj hq).1.symm

end Layer

theorem names_scaffold (name : String) (wd : Bool) :
    (scaffold name wd).names = ["entry", "local", "remote"] := rfl

theorem scaffold_freeOf (name : String) (wd : Bool) (role : Role) :
    (scaffold name wd).FreeOf role := by
  intro p hp
  rw [names_scaffold] at hp
  simp only [List.mem_cons, List.not_mem_nil, or_false] at hp
  exact p.name_ne_scaffold role _ hp rfl

namespace Codec

/-- The states of each layer of a codec have distinct names. -/
theorem nodup_names_layers (c : Codec) (layout : LayerLayout) (wd : Bool) :
    ∀ l ∈ (c.assemble layout wd).layers, l.names.Nodup := by
  have hscaffold (name : String) : (scaffold name wd).names.Nodup := by
    rw [names_scaffold]
    decide
  have hone (name : String) (role : Role) (root : Nat) :
      ((scaffold name wd).splice (c.tree role) root).names.Nodup :=
    Layer.nodup_names_splice (hscaffold name) (scaffold_freeOf name wd role) root
  cases layout with
  | split =>
    exact List.forall_mem_cons.2 ⟨hone _ .encode _, List.forall_mem_singleton.2 (hone _ .decode _)⟩
  | fused =>
    -- the decode tree comes into a layer that has the nodes of the encode tree already
    have hne : Role.decode ≠ .encode := by decide
    exact List.forall_mem_singleton.2 (Layer.nodup_names_splice (hone _ .encode _)
      ((scaffold_freeOf _ wd .decode).splice hne _) _)

/-- The layers of a codec are convertible. -/
theorem layers_convertible (c : Codec) (layout : LayerLayout) (wd : Bool) :
    ∀ l ∈ (c.assemble layout wd).layers, l.Convertible := by
  have hdefault : ∀ l ∈ (c.assemble layout wd).layers, l.defaultState < l.states.length := by
    refine forall_layers (fun name => Nat.zero_lt_succ 2) (fun l role hl => ?_) layout
    rw [Layer.states_splice, List.length_append]
    exact Nat.lt_add_right _ hl
  exact fun l hl => ⟨c.nodup_names_layers layout wd l hl, hdefault l hl,
    c.layers_closed layout wd l hl⟩

end Codec

/-- **Conversion loses nothing.** A convertible layer turns into one that tells all that it does, so
two that turn into the same do the same, and the layers of every codec are convertible. -/
theorem Layer.toController?_lossless :
    (∀ l : Layer, l.Convertible → ∃ k, l.toController? = some k ∧ l.ToldBy k)
      ∧ (∀ l l' : Layer, l.Convertible → l'.Convertible →
        l.toController? = l'.toController? → l.Alike l')
      ∧ ∀ (c : Codec) (layout : LayerLayout) (wd : Bool),
        ∀ l ∈ (c.assemble layout wd).layers, l.Convertible := by
  have htold {l : Layer} (h : l.Convertible) : l.toController? = some l.toController :=
    toController?_eq_some_iff.2 ⟨h.closed, rfl⟩
  refine ⟨fun l h => ⟨_, htold h, h.told⟩, fun l l' h h' heq => ?_, Codec.layers_convertible⟩
  rw [htold h, htold h', Option.some.injEq] at heq
  exact h.told.alike (heq ▸ h'.told) h.closed h'.closed

/-- A gate that opens and closes again; it is written down that it opens. -/
def turnstile (localOnly : Bool) : Layer where
  name := "Gate"
  writeDefaults := true
  states := [⟨"closed", true, [], localOnly⟩, ⟨"open", true, [.set "Shut" 0], true⟩]
  transitions := [⟨1, 0, [⟨.isSet, "Pass", 0⟩], 0, false⟩,
    ⟨0, 1, [⟨.greater, "Coins", 0⟩], 0, true⟩, ⟨1, 1, [⟨.isSet, "Hold", 0⟩], 0, false⟩]

/-- Two gates differ in a flag that has no effect: they turn into the same and are alike. -/
theorem Layer.toController?_lossless_turnstile :
    turnstile true ≠ turnstile false ∧ (turnstile true).Alike (turnstile false)
      ∧ (∃ k, (turnstile true).toController? = some k ∧ (turnstile true).ToldBy k)
      ∧ ((⟨"Mode", 4, by decide⟩ : Codec).fusedLayer true).Convertible := by
  have hconvertible (b : Bool) : (turnstile b).Convertible := by
    refine ⟨?_, ?_, ?_⟩ <;> revert b <;> decide
  have hflag : (turnstile true).states.map LayerState.localOnly
      ≠ (turnstile false).states.map LayerState.localOnly := by decide
  have hsame : (turnstile true).toController? = (turnstile false).toController? :=
    (toController?_eq_some_iff.2 ⟨(hconvertible true).closed, rfl⟩).trans
      (toController?_eq_some_iff.2 ⟨(hconvertible false).closed, rfl⟩).symm
  obtain ⟨htold, halike, hlayers⟩ := toController?_lossless
  exact ⟨fun h => hflag (h ▸ rfl), halike _ _ (hconvertible true) (hconvertible false) hsame,
    htold _ (hconvertible true), hlayers _ .fused true _ List.mem_cons_self⟩

end AvatarBits
