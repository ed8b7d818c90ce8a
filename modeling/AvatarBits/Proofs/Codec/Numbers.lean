import AvatarBits.Proofs.Avatar.Nesting
import AvatarBits.Proofs.Codec.Footprint
import AvatarBits.Proofs.Codec.Steering

/-!
# The numbers of generated layers

All numbers of a codec's layers are small whole ones: bits, values up to the
bound, and ends of spans. So they are finite, and a layer of a controller that
they turn into has no others, and no machines in its machine.

* `Layer.Finite`: all numbers of a generated layer are finite.

Results:
* `Codec.layers_finite`: the numbers of a codec's layers are finite.
* `Layer.Finite.toController`, `Layer.children_toController`: so are those of what they turn into,
  and no machine is nested in its machine.
-/
namespace AvatarBits

theorem Single.isFinite_ofInt {i : Int} (h : i.natAbs < 16777216) :
    (Binary.ofInt i : Single).IsFinite :=
  (Binary.is_ofInt Binary.single_room (Binary.single_fits h)).isFinite

theorem Single.isFinite_zero : (0 : Single).IsFinite := isFinite_ofInt (i := (0 : Nat)) (by decide)

/-! ## Trees -/

namespace Codec

variable {c : Codec}

theorem Writes.isFinite {d : DriverAction} (h : c.Writes d) : ∀ x ∈ d.numbers, x.IsFinite := by
  have hb := c.bound_le
  rw [maxBound] at hb
  cases h with
  | bit set hk =>
    exact List.forall_mem_singleton.2 (Single.isFinite_ofInt (by cases set <;> decide))
  | value hv => exact List.forall_mem_singleton.2 (Single.isFinite_ofInt (by omega))

/-- What a place compares with is finite. -/
theorem isFinite_threshold {role : Role} {p : Place} (hp : c.Has p) (hl : p.level < c.depth)
    {k : Condition} (hk : k ∈ c.enter role p ∨ k ∈ c.leave role p) : k.threshold.IsFinite := by
  have hhi := c.hi_lt hp hl
  have hlo := p.lo_le_hi
  have hindex : p.index ≤ p.lo := Nat.le_mul_of_pos_right _ p.span_pos
  have hvalue {mode : ConditionMode} {i : Int} (hi : i.natAbs ≤ 256) :
      (c.value mode i).threshold.IsFinite := by
    dsimp only [value]
    exact Single.isFinite_ofInt (by omega)
  have hbit {j : Nat} {b : Bool} : (c.bitIs j b).threshold.IsFinite := Single.isFinite_zero
  cases role with
  | encode =>
    simp only [enter, leave] at hk
    split at hk
    · simp only [List.mem_singleton] at hk
      rcases hk with rfl | rfl <;> exact hvalue (by omega)
    · simp only [List.mem_cons, List.not_mem_nil, or_false] at hk
      rcases hk with (rfl | rfl) | (rfl | rfl) <;> exact hvalue (by omega)
  | decode =>
    simp only [enter, leave] at hk
    rcases hk with hk | hk
    · rcases List.mem_cons.1 hk with rfl | hk
      · exact hbit
      · split at hk
        · obtain rfl := List.mem_singleton.1 hk
          exact hbit
        · cases hk
    · obtain ⟨j, -, rfl⟩ := List.mem_map.1 hk
      exact hbit

end Codec

/-! ## Layers -/

namespace Layer

/-- All numbers of a generated layer are finite. -/
structure Finite (l : Layer) : Prop where
  weight : l.defaultWeight.IsFinite
  actions : ∀ s ∈ l.states, ∀ d ∈ s.actions, ∀ x ∈ d.numbers, x.IsFinite
  transitions : ∀ t ∈ l.transitions,
    t.duration.IsFinite ∧ ∀ k ∈ t.conditions, k.threshold.IsFinite

variable {l : Layer} {c : Codec}

theorem Finite.splice (h : l.Finite) (role : Role) (root : Nat) :
    (l.splice (c.tree role) root).Finite where
  weight := h.weight
  actions s hs := by
    rw [states_splice] at hs
    rcases List.mem_append.1 hs with hs | hs
    · exact h.actions s hs
    · obtain ⟨n, hn, rfl⟩ := List.mem_map.1 hs
      exact fun d hd => (Codec.tree_writes hn hd).isFinite
  transitions t ht := by
    rcases mem_transitions_splice ht with ht | ⟨e, he, hconditions, hduration⟩
    · exact h.transitions t ht
    · obtain ⟨p, hp, hl, hk⟩ := Codec.exists_place_of_edge he
      rw [hconditions, hduration]
      exact ⟨Single.isFinite_zero, fun k hmem => Codec.isFinite_threshold hp hl (hk k hmem)⟩

end Layer

theorem scaffold_finite (name : String) (wd : Bool) : (scaffold name wd).Finite where
  weight := Single.isFinite_zero
  actions := by
    rw [forall_states_scaffold]
    exact ⟨List.forall_mem_nil _, List.forall_mem_nil _, List.forall_mem_nil _⟩
  transitions := by
    rw [forall_transitions_scaffold]
    have hzero := Single.isFinite_zero
    exact ⟨⟨hzero, List.forall_mem_singleton.2 hzero⟩, ⟨hzero, List.forall_mem_singleton.2 hzero⟩⟩

/-- The numbers of a codec's layers are finite. -/
theorem Codec.layers_finite (c : Codec) (layout : LayerLayout) (wd : Bool) :
    ∀ l ∈ (c.assemble layout wd).layers, l.Finite :=
  forall_layers (scaffold_finite · wd) (fun _ role hl => hl.splice role _) layout

/-! ## Layers of a controller -/

namespace Layer

variable {l : Layer} {k : ControllerLayer}

/-- No machine is nested in the one that a layer turns into. -/
theorem children_toController (hk : l.toController? = some k) : k.machine.children = [] := by
  obtain ⟨-, rfl⟩ := toController?_eq_some_iff.1 hk
  rfl

theorem syncedLayer_toController (hk : l.toController? = some k) : k.syncedLayer = -1 := by
  obtain ⟨-, rfl⟩ := toController?_eq_some_iff.1 hk
  rfl

/-- A layer whose numbers are finite turns into one whose numbers are finite. -/
theorem Finite.toController (h : l.Finite) (hk : l.toController? = some k) :
    ∀ x ∈ k.numbers, x.IsFinite := by
  obtain ⟨-, rfl⟩ := toController?_eq_some_iff.1 hk
  refine List.forall_mem_cons.2 ⟨h.weight, ?_⟩
  rw [StateMachine.numbers_eq]
  simp only [Layer.toController, List.flatMap_nil, List.append_nil, StateMachine.childNumbers,
    List.forall_mem_flatMap]
  intro s hs
  obtain ⟨i, hi, rfl⟩ := List.mem_mapIdx.1 hs
  refine List.forall_mem_append.2 ⟨List.forall_mem_flatMap.2 ?_, List.forall_mem_flatMap.2 ?_⟩
  · refine List.forall_mem_map.2 fun t ht => ?_
    obtain ⟨hduration, hthresholds⟩ := h.transitions t (List.mem_filter.1 ht).1
    exact List.forall_mem_cons.2 ⟨Single.isFinite_zero,
      List.forall_mem_cons.2 ⟨hduration, List.forall_mem_map.2 hthresholds⟩⟩
  · intro b hb
    refine List.forall_mem_flatMap.2 fun d hd => ?_
    have hwritten : d ∈ l.states[i].actions := by
      rw [← LayerState.actions_behaviours]
      exact List.mem_flatMap.2 ⟨b, hb, hd⟩
    exact h.actions _ (List.getElem_mem hi) d hwritten

end Layer

end AvatarBits
