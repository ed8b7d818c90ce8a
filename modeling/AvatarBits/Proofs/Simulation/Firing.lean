import AvatarBits.Simulation.Machine

/-!
# Sequences of transitions

A run is a sequence of transitions up to the first configuration in which none
is enabled. `Machine.Fires` counts such a sequence by the states it enters, and
`Machine.entered` computes them for a run.

Results:
* `Machine.settle_of_fires`, `Machine.run_of_fires`: a sequence within the limit that ends where
  nothing is enabled is the run.
* `Machine.fires_of_settle`: a run that settles is such a sequence.
* `Machine.enter_of_state`: what entering a state of a layer does.
-/
namespace AvatarBits

namespace Machine

/-! ## Sequences -/

/-- An instance fires transitions into states, one after another. -/
inductive Fires (m : Machine) : Instance → List Nat → Instance → Prop
  | nil (i : Instance) : Fires m i [] i
  | cons {i j k : Instance} {id : Nat} {ids : List Nat} (hn : m.next? i = some id)
      (he : m.enter id i = (j, none)) (ht : Fires m j ids k) : Fires m i (id :: ids) k

theorem Fires.append {m : Machine} {i j k : Instance} {xs ys : List Nat} (h : m.Fires i xs j)
    (h' : m.Fires j ys k) : m.Fires i (xs ++ ys) k := by
  induction h with
  | nil => exact h'
  | cons hn he _ ih => exact .cons hn he (ih h')

theorem Fires.single {m : Machine} {i j : Instance} {id : Nat} (hn : m.next? i = some id)
    (he : m.enter id i = (j, none)) : m.Fires i [id] j :=
  .cons hn he (.nil j)

/-- The states that a run enters by transitions. -/
def trail (m : Machine) : (budget : Nat) → Instance → List Nat
  | 0, _ => []
  | budget + 1, i =>
    match m.next? i with
    | none => []
    | some id => id :: trail m budget (m.enter id i).1

/-- The states that a run enters, the first state of a first run included. -/
def entered (m : Machine) (i : Instance) : List Nat :=
  if i.started then m.trail (m.limit + 1) i
  else m.layer.defaultState ::
    m.trail (m.limit + 1) (m.enter m.layer.defaultState { i with started := true }).1

theorem settle_of_fires {m : Machine} {i j : Instance} {ids : List Nat} (h : m.Fires i ids j)
    (hj : m.next? j = none) {budget : Nat} (hb : ids.length < budget) (fired : Nat) :
    m.settle budget fired i = (j, .ok (fired + ids.length)) ∧ m.trail budget i = ids := by
  induction h generalizing budget fired with
  | nil i =>
    obtain ⟨b, rfl⟩ : ∃ b, budget = b + 1 := ⟨budget - 1, by omega⟩
    simp only [settle, trail, hj, List.length_nil, Nat.add_zero, and_self]
  | @cons i j k id ids hn he _ ih =>
    obtain ⟨b, rfl⟩ : ∃ b, budget = b + 1 := ⟨budget - 1, by omega⟩
    rw [List.length_cons] at hb
    obtain ⟨hs, ht⟩ := ih hj (by omega : ids.length < b) (fired + 1)
    simp only [settle, trail, hn, he, hs, ht, List.length_cons, and_true]
    simp [Nat.add_right_comm, Nat.add_assoc]

/-- A run that settles fires its trail, and nothing is enabled where it ends. -/
theorem fires_of_settle {m : Machine} {budget fired n : Nat} {i j : Instance}
    (h : m.settle budget fired i = (j, .ok n)) :
    m.Fires i (m.trail budget i) j ∧ m.next? j = none ∧ n = fired + (m.trail budget i).length := by
  induction budget generalizing fired i with
  | zero => simp [settle] at h
  | succ b ih =>
    simp only [settle] at h
    cases hn : m.next? i with
    | none =>
      simp only [hn, Prod.mk.injEq, Except.ok.injEq] at h
      obtain ⟨rfl, rfl⟩ := h
      simp only [trail, hn]
      exact ⟨.nil i, trivial, rfl⟩
    | some id =>
      simp only [hn] at h
      cases he : m.enter id i with
      | mk k failure =>
        cases failure with
        | some e => simp [he] at h
        | none =>
          simp only [he] at h
          obtain ⟨hf, hj, rfl⟩ := ih h
          simp only [trail, hn, he, List.length_cons]
          exact ⟨.cons hn he hf, hj, by omega⟩

theorem run_of_fires {m : Machine} {i j : Instance} {ids : List Nat} (hs : i.started = true)
    (h : m.Fires i ids j) (hj : m.next? j = none) (hl : ids.length ≤ m.limit) :
    m.run i = (j, .ok ids.length) ∧ m.entered i = ids := by
  obtain ⟨h1, h2⟩ := settle_of_fires h hj (Nat.lt_succ_of_le hl) 0
  unfold run entered
  rw [if_pos hs, if_pos hs, h1, h2, Nat.zero_add]
  exact ⟨rfl, rfl⟩

/-- The first run enters the first state before anything else. -/
theorem first_run_of_fires {m : Machine} {i i' j : Instance} {ids : List Nat}
    (hs : i.started = false)
    (he : m.enter m.layer.defaultState { i with started := true } = (i', none))
    (h : m.Fires i' ids j) (hj : m.next? j = none) (hl : ids.length ≤ m.limit) :
    m.run i = (j, .ok ids.length) ∧ m.entered i = m.layer.defaultState :: ids := by
  obtain ⟨h1, h2⟩ := settle_of_fires h hj (Nat.lt_succ_of_le hl) 0
  unfold run entered
  rw [if_neg (by rw [hs]; decide), if_neg (by rw [hs]; decide), he]
  simp only [h1, h2, Nat.zero_add, and_self]

end Machine

/-! ## Writes -/

/-- Write numbers to names, one after another. -/
def Store.writeAll (s : Store) (ws : List (String × Single)) : Store :=
  ws.foldl (fun s w => s.write w.1 w.2) s

theorem perform_sets (state : String) (ws : List (String × Single)) (s : Store) :
    perform state (ws.map fun w => .set w.1 w.2) s = (s.writeAll ws, none) := by
  induction ws generalizing s with
  | nil => rfl
  | cons w ws ih => exact ih (s.write w.1 w.2)

namespace Machine

/-- Entering a state of writes only performs them, unless they are local and the instance is not. -/
theorem enter_of_state {l : Layer} {id : Nat} {state : LayerState} (hs : l.states[id]? = some state)
    {ws : List (String × Single)} (hw : state.actions = ws.map fun w => .set w.1 w.2)
    (i : Instance) : (ofLayer l).enter id i = ({ i with
        current := id
        store := if state.localOnly && !i.store.isSet isLocalName then i.store
          else i.store.writeAll ws }, none) := by
  unfold enter
  simp only [ofLayer, List.getElem?_toArray, hs, hw, perform_sets]
  by_cases h : (state.localOnly && !i.store.isSet isLocalName) = true
  · rw [if_pos h, if_pos h]
  · rw [if_neg h, if_neg h]

/-- Entering a state without writes only moves. -/
theorem enter_silent {l : Layer} {id : Nat} {state : LayerState} (hs : l.states[id]? = some state)
    (hw : state.actions = []) (i : Instance) :
    (ofLayer l).enter id i = ({ i with current := id }, none) := by
  have hn : state.actions = ([] : List (String × Single)).map fun w => .set w.1 w.2 := hw
  rw [enter_of_state hs hn]
  simp only [Store.writeAll, List.foldl_nil, ite_self]

end Machine

end AvatarBits
