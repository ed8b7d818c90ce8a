import AvatarBits.Proofs.Analysis.Exact
import Mathlib.Algebra.GroupWithZero.Nat
import Mathlib.Data.List.Nodup

/-!
# Counting what is looked at

An analysis counts while it looks: pages and their controls, then states, and of
actions and conditions those on a parameter that is tracked at that moment. But
which names are tracked changes only when bounds are pruned, and not while they
are raised, so every count is one of a list that is known before.

**Counts of lists.** A tally that is made of a list is additive if it is what the
members' tallies add up to. A fold whose steps each add the tally of one member
adds that of the list.

* `Avatar.Survives`: a candidate whose values in defaults and menu all fit.
* `StateMachine.actionsOn`, `StateMachine.conditionsOn`: what a machine has to do with some names.
* `StateMachine.total`, `Avatar.total`: the sum of a count over nested machines and over layers.

Results:
* `Menu.opened_once`: the walk through the menu comes to each page that can be reached once.
* `Avatar.mem_survivors_iff`: which candidates are tracked while machines are looked at.
* `Avatar.analyze_tally`: the counts of an analysis.
-/
namespace AvatarBits

/-! ## Pages -/

/-- Page by page, the walk through a menu comes to what can be reached from its root, and to no
position twice. -/
theorem Menu.opened_once (m : Menu) :
    ∃ reached : List (Nat × MenuPage), (reached.map Prod.fst).Nodup
      ∧ (∀ i page, (i, page) ∈ reached ↔ m.Reaches i page) ∧ m.opened = reached.map Prod.snd := by
  refine ⟨(m.openFrom [m.root] []).filterMap fun i => m.pages[i]?.map (i, ·), ?_, ?_, ?_⟩
  · rw [List.map_filterMap]
    apply List.Nodup.filterMap _ (m.nodup_openFrom [m.root] []).1
    intro i j k hi hj
    simp only [Option.map_map, Option.mem_def, Option.map_eq_some_iff, Function.comp] at hi hj
    obtain ⟨-, -, rfl⟩ := hi
    obtain ⟨-, -, rfl⟩ := hj
    rfl
  · intro i page
    simp only [List.mem_filterMap, Option.map_eq_some_iff, Prod.mk.injEq]
    constructor
    · rintro ⟨j, hj, next, hp, rfl, rfl⟩
      obtain ⟨page, hpage, h⟩ := Menu.mem_openFrom_root_iff.1 hj
      rw [hp] at hpage
      exact Option.some.inj hpage ▸ h
    · intro h
      obtain ⟨hp, hi⟩ := Menu.mem_openFrom_of_reaches h
      exact ⟨i, hi, page, hp, rfl, rfl⟩
  · rw [List.map_filterMap]
    simp [Menu.opened, Function.comp_def]

/-- Links in a circle, to the page itself and to nowhere; two of the pages hang nowhere. -/
example :
    let page (links : List Nat) : MenuPage :=
      { controls := links.map fun i => { type := .subMenu, subMenu := some i } }
    let m : Menu := { root := 1, pages := [page [5], page [1, 2, 7], page [1, 3], page [2, 2],
      page [0]] }
    m.openFrom [m.root] [] = [1, 2, 3] := by cbv

/-! ## Machines -/

namespace StateMachine

mutual

/-- The sum of a count over a machine and all machines in it. -/
def total (count : StateMachine → Nat) : StateMachine → Nat
  | ⟨name, defaultState, states, entry, anyState, children, behaviours⟩ =>
    count ⟨name, defaultState, states, entry, anyState, children, behaviours⟩
      + totalOf count children

/-- The sum of a count over all machines of a list of nested ones. -/
def totalOf (count : StateMachine → Nat) : List (Nested StateMachine) → Nat
  | [] => 0
  | ⟨m, _⟩ :: rest => total count m + totalOf count rest

end

mutual

theorem sum_all (count : StateMachine → Nat) :
    ∀ m : StateMachine, (m.all.map count).sum = m.total count
  | ⟨n, d, s, e, a, c, b⟩ => by
    rw [all, total, List.map_cons, List.sum_cons, sum_allOf count c]

theorem sum_allOf (count : StateMachine → Nat) :
    ∀ ns : List (Nested StateMachine), ((allOf ns).map count).sum = totalOf count ns
  | [] => by rw [allOf, totalOf]; rfl
  | ⟨m, t⟩ :: ns => by
    rw [allOf, totalOf, List.map_append, List.sum_append, sum_all count m, sum_allOf count ns]

end

end StateMachine

/-- Number of a behaviour's actions on names of some kind. -/
def Behaviour.actionsOn (kind : String → Bool) (b : Behaviour) : Nat :=
  b.actions.countP fun d => kind d.target

/-- Number of a transition's conditions on names of some kind. -/
def Transition.conditionsOn (kind : String → Bool) (t : Transition) : Nat :=
  t.conditions.countP fun k => kind k.parameter

namespace StateMachine

/-- Number of actions on names of some kind: in behaviours of the machine and of its states. -/
def actionsOn (kind : String → Bool) (m : StateMachine) : Nat :=
  (m.behaviours.map fun b => b.actionsOn kind).sum
    + (m.states.map fun s => (s.behaviours.map fun b => b.actionsOn kind).sum).sum

/-- Number of conditions on names of some kind: on the way in, from any state, from each state, and
out of each machine that is nested in it. -/
def conditionsOn (kind : String → Bool) (m : StateMachine) : Nat :=
  (m.entryTransitions.map fun t => t.conditionsOn kind).sum
    + (m.anyStateTransitions.map fun t => t.conditionsOn kind).sum
    + (m.states.map fun s => (s.transitions.map fun t => t.conditionsOn kind).sum).sum
    + (m.children.map fun n => (n.transitions.map fun t => t.conditionsOn kind).sum).sum

theorem countP_ownActions (kind : String → Bool) (m : StateMachine) :
    m.ownActions.countP (fun d => kind d.target) = m.actionsOn kind := by
  simp only [ownActions, actionsOn, Behaviour.actionsOn, List.flatMap_append, List.flatMap_assoc,
    List.countP_append, List.countP_flatMap, Function.comp_def]

theorem countP_ownConditions (kind : String → Bool) (m : StateMachine) :
    m.ownConditions.countP (fun k => kind k.parameter) = m.conditionsOn kind := by
  simp only [ownConditions, ownTransitions, conditionsOn, Transition.conditionsOn,
    List.flatMap_append, List.flatMap_assoc, List.countP_append, List.countP_flatMap,
    Function.comp_def]

end StateMachine

namespace Avatar

/-- The sum of a count over all machines of all layers that share no other layer's machine. -/
def total (a : Avatar) (count : StateMachine → Nat) : Nat :=
  (((a.controllers.flatMap Controller.layers).filter fun l => !l.isAlias).map
    fun l => l.machine.total count).sum

theorem sum_machines (a : Avatar) (count : StateMachine → Nat) :
    (a.machines.map count).sum = a.total count := by
  unfold machines total
  induction a.controllers.flatMap Controller.layers with
  | nil => rfl
  | cons l ls ih =>
    rw [List.flatMap_cons, List.map_append, List.sum_append, ih]
    cases hl : l.isAlias <;> simp [hl, StateMachine.sum_all]

end Avatar

/-! ## Tallies of lists -/

namespace Tally

/-- Counts are added one by one. -/
theorem add_eq (a b : Tally) :
    a + b = ⟨a.pages + b.pages, a.controls + b.controls, a.states + b.states,
      a.actions + b.actions, a.conditions + b.conditions, a.pruned + b.pruned,
      a.packed + b.packed, a.bits + b.bits, a.newStates + b.newStates,
      a.newTransitions + b.newTransitions⟩ := rfl

theorem add_assoc (a b c : Tally) : a + b + c = a + (b + c) := by
  simp only [add_eq, Nat.add_assoc]

/-- A tally of a list is what the tallies of its members add up to. -/
structure Additive {α : Type} (g : List α → Tally) : Prop where
  nil : g [] = {}
  cons : ∀ x xs, g (x :: xs) = g [x] + g xs

/-- A fold whose steps keep an invariant and each add the tally of one member adds that of the
list. -/
theorem Additive.foldl {σ α : Type} {g : List α → Tally} (hg : Additive g) (tally : σ → Tally)
    {P : σ → Prop} {f : σ → α → σ}
    (hf : ∀ s x, P s → P (f s x) ∧ tally (f s x) = tally s + g [x]) (xs : List α) {s : σ}
    (hs : P s) : P (xs.foldl f s) ∧ tally (xs.foldl f s) = tally s + g xs := by
  induction xs generalizing s with
  | nil => exact ⟨hs, by rw [hg.nil]; rfl⟩
  | cons x xs ih =>
    obtain ⟨hx, hstep⟩ := hf s x hs
    obtain ⟨hxs, hrest⟩ := ih hx
    refine ⟨hxs, ?_⟩
    rw [List.foldl_cons, hrest, hstep, add_assoc, ← hg.cons]

/-- Pages and their controls. -/
def ofPages (ps : List MenuPage) : Tally :=
  { pages := ps.length, controls := (ps.map fun p => p.controls.length).sum }

/-- States of machines, and the actions and conditions on names of some kind. -/
def ofMachines (tracked : String → Bool) (ms : List StateMachine) : Tally where
  states := (ms.map fun m => m.states.length).sum
  actions := (ms.map fun m => m.actionsOn tracked).sum
  conditions := (ms.map fun m => m.conditionsOn tracked).sum

theorem additive_ofPages : Additive ofPages where
  nil := rfl
  cons p ps := by
    simp [ofPages, add_eq, Nat.add_comm]

theorem additive_ofMachines (tracked : String → Bool) : Additive (ofMachines tracked) where
  nil := rfl
  cons m ms := by
    simp [ofMachines, add_eq]

/-- One count, of the members of some kind. -/
theorem additive_countP {α : Type} {u : Nat → Tally} (h0 : u 0 = {})
    (hu : ∀ m n, u (m + n) = u m + u n) (p : α → Bool) : Additive fun xs => u (xs.countP p) where
  nil := h0
  cons x xs := by
    rw [← hu]
    simp [List.countP_cons, Nat.add_comm]

end Tally

/-! ## Names that are tracked -/

/-- Raising bounds does not change which names are tracked. -/
theorem BoundTable.contains_raiseBy (t : BoundTable) (named : List (String × Single))
    (n : String) : (t.raiseBy named).contains n = t.contains n := by
  induction named generalizing t with
  | nil => rfl
  | cons p named ih =>
    have hkeep : (t.raise p.1 p.2).contains n = t.contains n := by
      unfold contains raise
      rw [List.any_map]
      congr 1
      funext e
      by_cases he : e.1 = p.1 <;> simp [he]
    exact (ih (t.raise p.1 p.2)).trans hkeep

namespace Analysis

/-- The names of an analysis' bounds are those of some kind. -/
def Tracks (a : Analysis) (tracked : String → Bool) : Prop :=
  ∀ n, a.bounds.contains n = tracked n

variable {tracked : String → Bool}

theorem Tracks.raised {a b : Analysis} {named : List (String × Single)} (h : a.Tracks tracked)
    (hb : b.bounds = a.bounds.raiseBy named) : b.Tracks tracked := by
  intro n
  rw [hb, BoundTable.contains_raiseBy, h]

/-- A fold that raises bounds and has one count, of what a rule makes of the tracked names. -/
theorem tally_counting {α : Type} {f : Analysis → α → Analysis} {u : Nat → Tally} (h0 : u 0 = {})
    (hu : ∀ m n, u (m + n) = u m + u n) (counts : (String → Bool) → α → Bool)
    (hraise : ∀ a x, ∃ named, (f a x).bounds = a.bounds.raiseBy named)
    (hcount : ∀ a x, (f a x).tally = a.tally + u ([x].countP (counts a.bounds.contains)))
    (xs : List α) {a : Analysis} (h : a.Tracks tracked) :
    (xs.foldl f a).Tracks tracked
      ∧ (xs.foldl f a).tally = a.tally + u (xs.countP (counts tracked)) := by
  refine (Tally.additive_countP h0 hu _).foldl tally (P := (Tracks · tracked)) ?_ xs h
  intro a x h
  obtain ⟨named, hb⟩ := hraise a x
  have hall : a.bounds.contains = tracked := funext h
  exact ⟨h.raised hb, hall ▸ hcount a x⟩

theorem tally_states (ss : List State) {a : Analysis} (h : a.Tracks tracked) :
    (ss.foldl state a).Tracks tracked
      ∧ (ss.foldl state a).tally = a.tally + { states := ss.length } := by
  rw [← congrFun List.countP_true ss]
  exact tally_counting (f := state) (u := fun n => { states := n }) rfl (fun _ _ => rfl)
    (fun _ _ => true) (fun _ _ => ⟨[], rfl⟩) (fun _ _ => rfl) ss h

theorem tally_actions (ds : List DriverAction) {a : Analysis} (h : a.Tracks tracked) :
    (ds.foldl action a).Tracks tracked
      ∧ (ds.foldl action a).tally
        = a.tally + { actions := ds.countP fun d => tracked d.target } := by
  refine tally_counting (u := fun n => { actions := n }) rfl (fun _ _ => rfl)
    (fun tracked d => tracked d.target) (fun a d => ⟨_, bounds_action a d⟩) ?_ ds h
  intro a d
  unfold action
  cases hd : a.bounds.contains d.target <;> simp [hd, Tally.add_eq]

theorem tally_conditions (ks : List Condition) {a : Analysis} (h : a.Tracks tracked) :
    (ks.foldl condition a).Tracks tracked
      ∧ (ks.foldl condition a).tally
        = a.tally + { conditions := ks.countP fun k => tracked k.parameter } := by
  refine tally_counting (u := fun n => { conditions := n }) rfl (fun _ _ => rfl)
    (fun tracked k => tracked k.parameter) (fun a k => ⟨_, bounds_condition a k⟩) ?_ ks h
  intro a k
  unfold condition
  cases hk : a.bounds.contains k.parameter <;> simp [hk, Tally.add_eq]

theorem tally_machines (ms : List StateMachine) {a : Analysis} (h : a.Tracks tracked) :
    (ms.foldl machine a).tally = a.tally + .ofMachines tracked ms := by
  refine ((Tally.additive_ofMachines tracked).foldl tally (P := (Tracks · tracked)) ?_ ms h).2
  intro a m h
  obtain ⟨hstates, ht⟩ := tally_states m.states h
  obtain ⟨hactions, hd⟩ := tally_actions m.ownActions hstates
  obtain ⟨hconditions, hk⟩ := tally_conditions m.ownConditions hactions
  refine ⟨hconditions, hk.trans ?_⟩
  rw [hd, ht, Tally.add_assoc, Tally.add_assoc, m.countP_ownActions, m.countP_ownConditions]
  congr 1
  simp [Tally.ofMachines, Tally.add_eq]

theorem tally_menu (a : Analysis) (m : Menu) : (a.menu m).tally = a.tally + .ofPages m.opened :=
  (Tally.additive_ofPages.foldl tally (P := fun _ => True)
    (fun _ _ _ => ⟨trivial, rfl⟩) m.opened trivial).2

/-- What is counted before the machines: pages, their controls, and what is dropped. -/
theorem tally_afterMenu (menu : Option Menu) (parameters : List Parameter) :
    (afterMenu menu parameters).tally = .ofPages (menu.elim [] Menu.opened)
      + { pruned := (afterMenu menu parameters).pruned.length } := by
  cases menu with
  | none => simp [afterMenu, prune, Tally.add_eq, Tally.ofPages]
  | some m => simp [afterMenu, prune, tally_menu, pruned_menu, Tally.add_eq, Tally.ofPages]

end Analysis

/-! ## The whole analysis -/

/-- A candidate of a list whose default and menu values all fit. -/
def Avatar.Survives (a : Avatar) (parameters : List Parameter) (name : String) : Prop :=
  (∃ p ∈ parameters, p.isCandidate = true ∧ p.name = name)
    ∧ ∀ x : Single, a.Offered name x → x.truncate ≤ maxBound

namespace Avatar

/-- The candidates that are left after the menu. -/
def survivors (a : Avatar) : List String :=
  a.candidateNames.filter fun n => a.shownPeak n ≤ maxBound

/-- The machines that are looked at: without a candidate left after the menu, none. -/
def visited (a : Avatar) : List StateMachine := if a.survivors = [] then [] else a.machines

section
variable {a : Avatar} {parameters : List Parameter} (hp : a.parameters = some parameters)
include hp

theorem mem_survivors_iff {name : String} :
    name ∈ a.survivors ↔ a.Survives parameters name := by
  unfold survivors Survives
  rw [List.mem_filter, mem_candidateNames_iff hp, decide_eq_true_eq]
  refine and_congr_right fun _ => ?_
  obtain ⟨hmem, hub⟩ := a.isGreatest_shownPeak name
  constructor
  · exact fun hfit x hx => (hub (Or.inr ⟨x, hx, rfl⟩)).trans hfit
  · intro hall
    rcases hmem with h0 | ⟨x, hx, he⟩
    · rw [h0]
      decide
    · exact he ▸ hall x hx

theorem afterMenu_tracks :
    (Analysis.afterMenu a.menu parameters).Tracks fun n => n ∈ a.survivors := by
  intro n
  rw [(afterMenu_eq hp).1, Bool.eq_iff_iff, BoundTable.contains_ofPeaks, decide_eq_true_eq]
  rfl

/-- The counts of an analysis. -/
theorem analyze_tally :
    a.analyze.tally = .ofPages (a.menu.elim [] Menu.opened)
      + .ofMachines (fun n => n ∈ a.survivors) a.visited
      + { pruned := a.analyze.pruned.length } := by
  have hempty : (Analysis.afterMenu a.menu parameters).bounds.entries.isEmpty = true
      ↔ a.survivors = [] := by
    rw [(afterMenu_eq hp).1, List.isEmpty_iff]
    simp [BoundTable.ofPeaks, survivors]
  unfold visited
  rw [analyze_eq hp]
  by_cases hs : a.survivors = []
  · rw [if_pos (hempty.2 hs), if_pos hs, Analysis.tally_afterMenu]
    rfl
  · rw [if_neg fun h => hs (hempty.1 h), if_neg hs]
    have hdropped := Analysis.foldl_keeps Analysis.pruned Analysis.pruned_machine a.machines
      (Analysis.afterMenu a.menu parameters)
    have hcounted := Analysis.tally_machines a.machines (afterMenu_tracks hp)
    rw [Analysis.tally_afterMenu] at hcounted
    simp only [Analysis.prune, hcounted, hdropped, List.length_append]
    simp [Tally.add_eq, Tally.ofPages, Tally.ofMachines]

end

end Avatar

end AvatarBits
