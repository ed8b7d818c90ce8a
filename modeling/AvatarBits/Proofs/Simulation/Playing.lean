import AvatarBits.Proofs.Simulation.Firing

/-!
# Playing with an instance

From outside, an instance is given values and made to run, in any order. What one
transition keeps, a run keeps, whether it settles or fails, and what every event
keeps holds after any number of them.

Two instances of a layer that stand in one state do the same for as long as they
agree on the names that the layer looks at: its conditions depend on nothing
else, and what it writes does not depend on what the name held, except that a
name keeps its kind.

* `Event`, `Machine.play`: what happens to an instance from outside.
* `Layer.Observes`: the names that a layer looks at.

Results:
* `Machine.settle_keeps`, `Machine.trail_keeps`: from one transition to a run.
* `Machine.play_keeps`: from one event to any number.
* `Layer.Observes.settle_agree`: instances that agree on what is looked at settle alike.
-/
namespace AvatarBits

/-- What happens to an instance from outside. -/
inductive Event where
  | set (name : String) (v : ParamValue)
  | run
  deriving DecidableEq

namespace Machine

/-- An instance after an event. A run that fails leaves it as it was at the failure. -/
def react (m : Machine) (i : Instance) : Event → Instance
  | .set name v => i.set name v
  | .run => (m.run i).1

/-- An instance after some events. -/
def play (m : Machine) (es : List Event) (i : Instance) : Instance := es.foldl m.react i

/-! ## From steps to runs -/

section
variable {m : Machine} {K : Instance → Prop}

/-- What entering the next state keeps is kept by a run, also by one that fails. -/
theorem settle_keeps (hstep : ∀ i id, K i → m.next? i = some id → K (m.enter id i).1)
    (budget fired : Nat) {i : Instance} (hi : K i) : K (m.settle budget fired i).1 := by
  induction budget generalizing fired i with
  | zero => exact hi
  | succ budget ih =>
    cases hn : m.next? i with
    | none => simpa [settle, hn] using hi
    | some id =>
      have hk := hstep i id hi hn
      cases he : m.enter id i with
      | mk j failure =>
        rw [he] at hk
        cases failure with
        | some e => simpa [settle, hn, he] using hk
        | none => simpa [settle, hn, he] using ih (fired + 1) hk

/-- What holds of every next state holds of all the states that a run enters. -/
theorem trail_keeps {B : Nat → Prop}
    (hstep : ∀ i id, K i → m.next? i = some id → K (m.enter id i).1)
    (hnext : ∀ i id, K i → m.next? i = some id → B id) (budget : Nat) {i : Instance} (hi : K i) :
    ∀ id ∈ m.trail budget i, B id := by
  induction budget generalizing i with
  | zero => simp [trail]
  | succ budget ih =>
    rw [trail]
    cases hn : m.next? i with
    | none => simp
    | some id => exact List.forall_mem_cons.2 ⟨hnext i id hi hn, ih (hstep i id hi hn)⟩

/-- What every event keeps holds after any number of them. -/
theorem play_keeps (hset : ∀ i name v, K i → K (i.set name v)) (hrun : ∀ i, K i → K (m.run i).1)
    (es : List Event) {i : Instance} (hi : K i) : K (m.play es i) := by
  induction es generalizing i with
  | nil => exact hi
  | cons e es ih =>
    cases e with
    | set name v => exact ih (hset i name v hi)
    | run => exact ih (hrun i hi)

end

/-! ## Single transitions -/

/-- An instance goes along a transition that leaves its state and is enabled. -/
theorem exists_of_next? {l : Layer} {i : Instance} {id : Nat}
    (h : (ofLayer l).next? i = some id) :
    ∃ t ∈ l.transitions, t.source = i.current ∧ t.destination = id ∧ t.enabled i.store := by
  rw [next?_eq] at h
  split at h
  · obtain ⟨t, ht, rfl⟩ := Option.map_eq_some_iff.1 h
    have hm := List.mem_filter.1 (List.mem_of_find?_eq_some ht)
    exact ⟨t, hm.1, by simpa using hm.2, rfl, by simpa using List.find?_some ht⟩
  · cases h

theorem started_enter (m : Machine) (id : Nat) (i : Instance) :
    (m.enter id i).1.started = i.started := by
  unfold enter
  split
  · rfl
  · dsimp only
    split <;> rfl

theorem started_run (m : Machine) (i : Instance) : (m.run i).1.started = true := by
  have hsettle : ∀ {i : Instance} (budget fired : Nat), i.started = true →
      (m.settle budget fired i).1.started = true := fun budget fired hi =>
    settle_keeps (K := fun i => i.started = true)
      (fun i id hi _ => (m.started_enter id i).trans hi) budget fired hi
  unfold run
  split
  · exact hsettle _ _ ‹_›
  · have he := m.started_enter m.layer.defaultState { i with started := true }
    cases h : m.enter m.layer.defaultState { i with started := true } with
    | mk j failure =>
      rw [h] at he
      cases failure with
      | some e => exact he
      | none => exact hsettle _ _ he

end Machine

/-! ## Agreement -/

/-- Two stores hold the same under some names. -/
def Store.Agree (names : List String) (s t : Store) : Prop := ∀ n ∈ names, s.get? n = t.get? n

namespace Store.Agree

variable {names : List String} {s t : Store}

theorem isSet_eq (h : Agree names s t) {n : String} (hn : n ∈ names) : s.isSet n = t.isSet n := by
  simp [isSet, h n hn]

theorem holds_eq (h : Agree names s t) {k : Condition} (hk : k.parameter ∈ names) :
    k.holds s = k.holds t := by
  simp [Condition.holds, h _ hk]

/-- Writing keeps agreement: what a name holds after depends on what it held before only. -/
theorem write (h : Agree names s t) (name : String) (x : Single) :
    Agree names (s.write name x) (t.write name x) := by
  intro n hn
  rw [get?_write, get?_write]
  by_cases e : n = name
  · simp [← e, h n hn]
  · simp [e, h n hn]

theorem writeAll (h : Agree names s t) (ws : List (String × Single)) :
    Agree names (s.writeAll ws) (t.writeAll ws) := by
  induction ws generalizing s t with
  | nil => exact h
  | cons w ws ih => exact ih (h.write w.1 w.2)

end Store.Agree

/-- A layer looks at some names only, and writes fixed values. The mark of the wearer's own
instance is always looked at. -/
structure Layer.Observes (l : Layer) (names : List String) : Prop where
  isLocal : isLocalName ∈ names
  tests : ∀ t ∈ l.transitions, ∀ k ∈ t.conditions, k.parameter ∈ names
  writes : ∀ s ∈ l.states, ∃ ws : List (String × Single),
    s.actions = ws.map fun w => .set w.1 w.2

namespace Layer.Observes

variable {l : Layer} {names : List String} (h : l.Observes names) {i j : Instance}
include h

theorem next?_eq (hc : i.current = j.current) (ha : i.store.Agree names j.store) :
    (Machine.ofLayer l).next? i = (Machine.ofLayer l).next? j := by
  have he : ∀ t ∈ l.transitionsFrom j.current, t.enabled i.store = t.enabled j.store := by
    intro t ht
    have hm := (List.mem_filter.1 ht).1
    unfold LayerTransition.enabled
    rw [Bool.eq_iff_iff, List.all_eq_true, List.all_eq_true]
    exact forall₂_congr fun k hk => by rw [ha.holds_eq (h.tests t hm k hk)]
  have hf : (l.transitionsFrom j.current).find? (·.enabled i.store)
      = (l.transitionsFrom j.current).find? (·.enabled j.store) := by
    rw [← List.head?_filter, List.filter_congr he, List.head?_filter]
  rw [Machine.next?_eq, Machine.next?_eq, hc, hf]

theorem enter_agree (hc : i.current = j.current) (ha : i.store.Agree names j.store) (id : Nat) :
    ((Machine.ofLayer l).enter id i).2 = ((Machine.ofLayer l).enter id j).2
      ∧ ((Machine.ofLayer l).enter id i).1.current = ((Machine.ofLayer l).enter id j).1.current
      ∧ ((Machine.ofLayer l).enter id i).1.store.Agree names
          ((Machine.ofLayer l).enter id j).1.store := by
  cases hs : l.states[id]? with
  | none =>
    have hu : ∀ i, (Machine.ofLayer l).enter id i = (i, some (.unknownState l.name id)) := by
      intro i
      simp [Machine.enter, Machine.ofLayer, hs]
    rw [hu, hu]
    exact ⟨rfl, hc, ha⟩
  | some state =>
    obtain ⟨ws, hw⟩ := h.writes state (List.mem_of_getElem? hs)
    rw [Machine.enter_of_state hs hw, Machine.enter_of_state hs hw, ha.isSet_eq h.isLocal]
    refine ⟨rfl, rfl, ?_⟩
    dsimp only
    split
    · exact ha
    · exact ha.writeAll ws

/-- Instances that stand in one state and agree on what is looked at settle alike, and agree
after. -/
theorem settle_agree (budget fired : Nat) (hc : i.current = j.current)
    (ha : i.store.Agree names j.store) :
    ((Machine.ofLayer l).settle budget fired i).2 = ((Machine.ofLayer l).settle budget fired j).2
      ∧ ((Machine.ofLayer l).settle budget fired i).1.current
        = ((Machine.ofLayer l).settle budget fired j).1.current
      ∧ ((Machine.ofLayer l).settle budget fired i).1.store.Agree names
          ((Machine.ofLayer l).settle budget fired j).1.store := by
  induction budget generalizing fired i j with
  | zero => exact ⟨rfl, hc, ha⟩
  | succ budget ih =>
    have hi := h.next?_eq hc ha
    cases hn : (Machine.ofLayer l).next? j with
    | none => simp only [Machine.settle, hi, hn, hc, ha, and_self]
    | some id =>
      obtain ⟨hf, hc', ha'⟩ := h.enter_agree hc ha id
      cases hei : (Machine.ofLayer l).enter id i with
      | mk i' failure =>
        cases hej : (Machine.ofLayer l).enter id j with
        | mk j' failure' =>
          rw [hei, hej] at hf hc' ha'
          obtain rfl : failure = failure' := hf
          cases failure with
          | some e => simpa only [Machine.settle, hi, hn, hei, hej, true_and] using ⟨hc', ha'⟩
          | none => simpa only [Machine.settle, hi, hn, hei, hej] using ih (fired + 1) hc' ha'

end Layer.Observes

end AvatarBits
