import AvatarBits.Proofs.Simulation.Playing
import Mathlib.Control.Monad.Basic

/-!
# Runs, step by step

A run goes round a loop that looks for an enabled transition before it fires one,
and goes round once more than the limit says. What it does can be said without
the loop: an instance makes steps, each along the first enabled transition of its
state, and the run ends after the first of them that cannot be made, or fails
after the first that fails, or else one step beyond the limit.

Positions need not be those of states. A transition may lead nowhere, and entering
its destination fails; or it may leave from nowhere, and is never taken, since an
instance that stands at no state has no transitions. That happens to an instance
whose layer starts nowhere: its first run fails, and every later one rests.

* `Layer.Offers`: the first enabled transition that leaves a position.
* `Layer.Steps`: a number of steps that succeed.

Results:
* `Machine.next?_eq_some_iff`, `Layer.steps_iff`: steps are what a run fires.
* `Machine.Fires.settle`: a run goes on from where its first steps lead.
* `Machine.fires_of_error`: how a run fails.
* `Machine.run_exact`: a run is its steps, up to the limit.
-/
namespace AvatarBits

/-! ## Steps -/

namespace Layer

/-- The first transition that leaves the position of an instance and whose conditions all hold. -/
def Offers (l : Layer) (i : Instance) (t : LayerTransition) : Prop :=
  ∃ before after, l.transitionsFrom i.current = before ++ t :: after
    ∧ (∀ c ∈ t.conditions, c.holds i.store = true)
    ∧ ∀ u ∈ before, ∃ c ∈ u.conditions, c.holds i.store = false

/-- The transition that an instance takes next: it stands at a state, and this is the one offered
there. -/
def Takes (l : Layer) (i : Instance) (t : LayerTransition) : Prop :=
  i.current < l.states.length ∧ l.Offers i t

/-- No transition is taken next. -/
def Rests (l : Layer) (i : Instance) : Prop := ∀ t, ¬ l.Takes i t

/-- A number of steps, one after another: each enters the destination of the transition that is
taken, and none fails. -/
inductive Steps (l : Layer) : Nat → Instance → Instance → Prop
  | none (i : Instance) : Steps l 0 i i
  | step {n : Nat} {i j k : Instance} {t : LayerTransition} :
    l.Takes i t → (Machine.ofLayer l).enter t.destination i = (j, .none) → Steps l n j k →
    Steps l (n + 1) i k

/-- The step that comes after some others fails. -/
def FailsAfter (l : Layer) (n : Nat) (i j : Instance) (e : PackError) : Prop :=
  ∃ k t, l.Steps n i k ∧ l.Takes k t ∧ (Machine.ofLayer l).enter t.destination k = (j, some e)

theorem enabled_iff {t : LayerTransition} {s : Store} :
    t.enabled s = true ↔ ∀ c ∈ t.conditions, c.holds s = true := by
  simp [LayerTransition.enabled]

theorem not_enabled_iff {t : LayerTransition} {s : Store} :
    t.enabled s = false ↔ ∃ c ∈ t.conditions, c.holds s = false := by
  simp [LayerTransition.enabled]

theorem offers_iff {l : Layer} {i : Instance} {t : LayerTransition} :
    l.Offers i t ↔ (l.transitionsFrom i.current).find? (·.enabled i.store) = some t := by
  simp only [List.find?_eq_some_iff_append, enabled_iff, Offers, Bool.not_eq_true',
    not_enabled_iff]
  constructor
  · intro ⟨before, after, hsplit, ht, hbefore⟩
    exact ⟨ht, before, after, hsplit, hbefore⟩
  · intro ⟨ht, before, after, hsplit, hbefore⟩
    exact ⟨before, after, hsplit, ht, hbefore⟩

end Layer

namespace Machine

/-- Where an instance goes next is where the transition leads that it takes. -/
theorem next?_eq_some_iff {l : Layer} {i : Instance} {id : Nat} :
    (ofLayer l).next? i = some id ↔ ∃ t, l.Takes i t ∧ t.destination = id := by
  rw [next?_eq]
  by_cases hc : i.current < l.states.length
  · simp [Layer.Takes, hc, Layer.offers_iff]
  · simp [Layer.Takes, hc]

theorem next?_eq_none_iff {l : Layer} {i : Instance} :
    (ofLayer l).next? i = none ↔ l.Rests i := by
  rw [Option.eq_none_iff_forall_ne_some]
  constructor
  · intro h t ht
    exact h t.destination (next?_eq_some_iff.2 ⟨t, ht, rfl⟩)
  · intro h id hid
    obtain ⟨t, ht, -⟩ := next?_eq_some_iff.1 hid
    exact h t ht

end Machine

/-- Steps are transitions that fire. -/
theorem Layer.steps_iff {l : Layer} {n : Nat} {i j : Instance} :
    l.Steps n i j ↔ ∃ ids, ids.length = n ∧ (Machine.ofLayer l).Fires i ids j := by
  constructor
  · intro h
    induction h with
    | none i => exact ⟨[], rfl, .nil i⟩
    | step ht he _ ih =>
      obtain ⟨ids, hlen, hfires⟩ := ih
      exact ⟨_ :: ids, congrArg (· + 1) hlen,
        .cons (Machine.next?_eq_some_iff.2 ⟨_, ht, rfl⟩) he hfires⟩
  · intro ⟨ids, hlen, h⟩
    induction h generalizing n with
    | nil i => subst hlen; exact .none i
    | cons hn he _ ih =>
      subst hlen
      obtain ⟨t, ht, rfl⟩ := Machine.next?_eq_some_iff.1 hn
      exact .step ht he (ih rfl)

/-! ## Runs -/

namespace Machine

/-- A run goes on from where its first transitions lead. -/
theorem Fires.settle {m : Machine} {i j : Instance} {ids : List Nat} (h : m.Fires i ids j)
    (budget fired : Nat) :
    m.settle (budget + ids.length) fired i = m.settle budget (fired + ids.length) j := by
  induction h generalizing fired with
  | nil => rfl
  | @cons i j k id ids hn he _ ih =>
    have hcount : fired + (ids.length + 1) = fired + 1 + ids.length := by omega
    rw [List.length_cons, ← Nat.add_assoc, Machine.settle, hn]
    simp only [he]
    rw [ih, hcount]

/-- A run that fails has used up its budget, or entering a next state has failed. -/
theorem fires_of_error {m : Machine} {budget fired : Nat} {i j : Instance} {e : PackError}
    (h : m.settle budget fired i = (j, .error e)) :
    (∃ ids, m.Fires i ids j ∧ ids.length = budget ∧ e = .unsettled m.layer.name m.limit)
      ∨ ∃ ids k id, m.Fires i ids k ∧ ids.length < budget ∧ m.next? k = some id
        ∧ m.enter id k = (j, some e) := by
  induction budget generalizing fired i with
  | zero =>
    simp only [Machine.settle, Prod.mk.injEq, Except.error.injEq] at h
    obtain ⟨rfl, rfl⟩ := h
    exact Or.inl ⟨[], .nil i, rfl, rfl⟩
  | succ budget ih =>
    simp only [Machine.settle] at h
    cases hn : m.next? i with
    | none => simp [hn] at h
    | some id =>
      simp only [hn] at h
      cases he : m.enter id i with
      | mk k failure =>
        cases failure with
        | some f =>
          -- the first step fails
          simp only [he, Prod.mk.injEq, Except.error.injEq] at h
          obtain ⟨rfl, rfl⟩ := h
          exact Or.inr ⟨[], i, id, .nil i, Nat.zero_lt_succ budget, hn, he⟩
        | none =>
          simp only [he] at h
          rcases ih h with ⟨ids, hf, hlen, hj⟩ | ⟨ids, k', id', hf, hlen, hn', he'⟩
          · exact Or.inl ⟨id :: ids, .cons hn he hf, congrArg (· + 1) hlen, hj⟩
          · exact Or.inr ⟨id :: ids, k', id', .cons hn he hf, Nat.succ_lt_succ hlen, hn', he'⟩

theorem length_trail_le (m : Machine) (budget : Nat) (i : Instance) :
    (m.trail budget i).length ≤ budget := by
  induction budget generalizing i with
  | zero => exact Nat.le_refl 0
  | succ budget ih =>
    rw [trail]
    cases m.next? i with
    | none => exact Nat.zero_le _
    | some id => exact Nat.succ_le_succ (ih (m.enter id i).1)

/-- A run that settles leaves some of its budget. -/
theorem fires_of_ok {m : Machine} {budget fired n : Nat} {i j : Instance}
    (h : m.settle budget fired i = (j, .ok n)) :
    ∃ ids, m.Fires i ids j ∧ ids.length < budget ∧ m.next? j = none ∧ n = fired + ids.length := by
  obtain ⟨hf, hj, hn⟩ := fires_of_settle h
  refine ⟨_, hf, Nat.lt_of_le_of_ne (m.length_trail_le budget i) ?_, hj, hn⟩
  intro hlen
  have hspent := hf.settle 0 fired
  rw [Nat.zero_add, hlen, h] at hspent
  cases hspent

section
variable {l : Layer} {i j : Instance} (h : i.started = true)
include h

/-- A run of a started instance is one of the loop, and has one transition more than the limit. -/
theorem run_started (l : Layer) :
    (ofLayer l).run i = (ofLayer l).settle (2 * l.states.length + 9) 0 i := by
  simp [run, h, limit, ofLayer]

/-- A run returns a number exactly if so many steps succeed and there is no other. -/
theorem run_eq_ok_iff {n : Nat} : (ofLayer l).run i = (j, .ok n)
    ↔ n ≤ 2 * l.states.length + 8 ∧ l.Steps n i j ∧ l.Rests j := by
  rw [run_started h, Layer.steps_iff, ← next?_eq_none_iff]
  constructor
  · intro hrun
    obtain ⟨ids, hf, hlen, hj, hn⟩ := fires_of_ok hrun
    rw [Nat.zero_add] at hn
    exact ⟨by omega, ⟨ids, hn.symm, hf⟩, hj⟩
  · intro ⟨hn, ⟨ids, hlen, hf⟩, hj⟩
    have hlt : ids.length < 2 * l.states.length + 9 := by omega
    rw [(settle_of_fires hf hj hlt 0).1, Nat.zero_add, hlen]

/-- A run fails exactly if one step more than the limit succeeds, or one up to there fails. -/
theorem run_eq_error_iff {e : PackError} : (ofLayer l).run i = (j, .error e)
    ↔ (l.Steps (2 * l.states.length + 9) i j
        ∧ e = .unsettled l.name (2 * l.states.length + 8))
      ∨ ∃ n ≤ 2 * l.states.length + 8, l.FailsAfter n i j e := by
  have hlimit : (ofLayer l).limit = 2 * l.states.length + 8 := by simp [limit, ofLayer]
  rw [run_started h]
  constructor
  · intro hrun
    rcases fires_of_error hrun with ⟨ids, hf, hlen, rfl⟩ | ⟨ids, k, id, hf, hlen, hn, he⟩
    · exact Or.inl ⟨Layer.steps_iff.2 ⟨ids, hlen, hf⟩, by rw [hlimit]; rfl⟩
    · obtain ⟨t, ht, rfl⟩ := next?_eq_some_iff.1 hn
      exact Or.inr ⟨ids.length, by omega, k, t, Layer.steps_iff.2 ⟨ids, rfl, hf⟩, ht, he⟩
  · intro hsteps
    rcases hsteps with ⟨hs, rfl⟩ | ⟨n, hn, k, t, hs, ht, he⟩
    · obtain ⟨ids, hlen, hf⟩ := Layer.steps_iff.1 hs
      have hspent := hf.settle 0 0
      rw [Nat.zero_add, hlen] at hspent
      rw [hspent, settle, hlimit]
      rfl
    · obtain ⟨ids, rfl, hf⟩ := Layer.steps_iff.1 hs
      -- what is left of the budget pays for the step that fails
      obtain ⟨b, hb⟩ : ∃ b, 2 * l.states.length + 9 = b + 1 + ids.length :=
        ⟨2 * l.states.length + 8 - ids.length, by omega⟩
      have hnext := next?_eq_some_iff.2 ⟨t, ht, rfl⟩
      rw [hb, hf.settle, settle, hnext]
      simp only [he]

end

/-- A run that settles leaves nothing to do for the next one. -/
theorem run_again {i j : Instance} {n : Nat} (h : (ofLayer l).run i = (j, .ok n)) :
    (ofLayer l).run j = (j, .ok 0) := by
  have hstarted : j.started = true := by
    have hrun := (ofLayer l).started_run i
    rwa [h] at hrun
  have hrests : l.Rests j := by
    rw [← next?_eq_none_iff]
    unfold run at h
    split at h
    · exact (fires_of_settle h).2.1
    · split at h
      · cases h
      · exact (fires_of_settle h).2.1
  exact (run_eq_ok_iff hstarted).2 ⟨Nat.zero_le _, .none j, hrests⟩

/-- **Runs are exact up to the limit.** For every layer, whatever its positions, conditions and
writes, and every instance that has been started, with a limit of eight more than twice the number
of states: a run returns a number exactly if so many steps, up to the limit, succeed and no other is
left, and ends where they do; it says that the layer does not settle exactly if one step more than
the limit succeeds; and it fails otherwise exactly if a step up to there fails, as that one does.
What has settled stays as it is in the next run. -/
theorem run_exact (l : Layer) :
    (∀ i, i.started = true →
      (∀ n j, (ofLayer l).run i = (j, .ok n)
        ↔ n ≤ 2 * l.states.length + 8 ∧ l.Steps n i j ∧ l.Rests j)
      ∧ ∀ e j, (ofLayer l).run i = (j, .error e)
        ↔ (l.Steps (2 * l.states.length + 9) i j
            ∧ e = .unsettled l.name (2 * l.states.length + 8))
          ∨ ∃ n ≤ 2 * l.states.length + 8, l.FailsAfter n i j e)
    ∧ ∀ i j n, (ofLayer l).run i = (j, .ok n) → (ofLayer l).run j = (j, .ok 0) := by
  refine ⟨fun i hi => ⟨fun n j => run_eq_ok_iff hi, fun e j => run_eq_error_iff hi⟩, ?_⟩
  intro i j n h
  exact run_again h

/-- A layer that counts to three. One of its transitions leads nowhere, and one leaves from
nowhere. -/
def counting : Layer where
  name := "Count"
  writeDefaults := false
  states := [⟨"wait", false, [], false⟩, ⟨"tick", false, [.add "Count" 1], false⟩]
  transitions := [⟨0, 1, [⟨.less, "Count", 3⟩], 0, false⟩, ⟨1, 0, [], 0, false⟩,
    ⟨0, 9, [⟨.isSet, "Broken", 0⟩], 0, false⟩, ⟨7, 1, [], 0, false⟩]

/-- An instance of it that waits with some count. -/
def waiting (count : Int) (broken : Bool) : Instance where
  current := 0
  started := true
  store := ⟨[("Count", .int count), ("Broken", .bool broken)]⟩

/-- It takes six steps to count to three, and then there is no other; where the layer is broken, a
step fails instead. -/
theorem run_exact_counting :
    counting.Steps 6 (waiting 0 false) (waiting 3 false) ∧ counting.Rests (waiting 3 false)
      ∧ (ofLayer counting).run (waiting 3 false) = (waiting 3 false, .ok 0)
      ∧ ∃ n ≤ 12, counting.FailsAfter n (waiting 0 true) (waiting 3 true)
        (.unknownState "Count" 9) := by
  have hcounts : (ofLayer counting).run (waiting 0 false) = (waiting 3 false, .ok 6) := by
    decide +kernel
  have hbreaks : (ofLayer counting).run (waiting 0 true)
      = (waiting 3 true, .error (.unknownState "Count" 9)) := by
    decide +kernel
  obtain ⟨hexact, hagain⟩ := run_exact counting
  obtain ⟨-, hsteps, hrests⟩ := ((hexact (waiting 0 false) rfl).1 6 _).1 hcounts
  refine ⟨hsteps, hrests, hagain _ _ _ hcounts, ?_⟩
  rcases ((hexact (waiting 0 true) rfl).2 _ _).1 hbreaks with ⟨-, he⟩ | hfails
  · cases he
  · exact hfails

/-- A layer that starts nowhere, with a transition from there to its only state. -/
def adrift : Layer where
  name := "Adrift"
  writeDefaults := false
  defaultState := 1
  states := [⟨"home", false, [], false⟩]
  transitions := [⟨1, 0, [], 0, false⟩]

/-- After its first run, which fails, the transition is the first enabled one that leaves the
position of the instance, and entering its destination would succeed and be the last step. But the
next run makes no step at all. -/
theorem run_adrift :
    let m := ofLayer adrift
    let i := m.play [.run] m.start
    let home : Instance := { i with current := 0 }
    i.started = true ∧ (∃ t, adrift.Offers i t ∧ m.enter t.destination i = (home, none))
      ∧ (∀ t, ¬ adrift.Offers home t) ∧ m.run i = (i, .ok 0) ∧ m.run i ≠ (home, .ok 1) := by
  intro m i home
  refine ⟨rfl, ⟨⟨1, 0, [], 0, false⟩, ?_, rfl⟩, ?_, by decide +kernel, by decide +kernel⟩
  · rw [Layer.offers_iff]
    decide +kernel
  · intro t ht
    rw [Layer.offers_iff] at ht
    cases ht

end Machine

end AvatarBits
