import AvatarBits.Proofs.Analysis.Literals
import AvatarBits.Proofs.Analysis.Peaks

/-!
# The analysis in closed form

Looking at a part of an avatar raises the bounds of the names that the part names
values for. Whether a name is tracked need not be asked before, since raising
one that is not changes nothing. So the analysis raises one list of names with
values after the other, and its result can be read off the values that each name
is raised by: first those of defaults and menu, then those of machines.

Results:
* `Analysis.bounds_menu`, `Analysis.bounds_machine`: what a part raises.
* `Avatar.analyze_bounds`, `Avatar.analyze_pruned`: what is kept and what is dropped.
-/
namespace AvatarBits

/-! ## Values that go with names -/

/-- The values that the controls of a page set parameters to. -/
def MenuPage.named (p : MenuPage) : List (String × Single) :=
  p.controls.flatMap fun k => (k.parameter.map (·, k.value)).toList

/-- The values that the controls of a menu set parameters to. -/
def Menu.named (m : Menu) : List (String × Single) := m.opened.flatMap MenuPage.named

/-- The values that a machine by itself gives parameters or compares them with. -/
def StateMachine.named (m : StateMachine) : List (String × Single) :=
  m.ownActions.flatMap (fun d => d.literals.map (d.target, ·))
    ++ m.ownConditions.flatMap fun k => k.literals.map (k.parameter, ·)

namespace Avatar

/-- The candidates of an avatar. -/
def candidates (a : Avatar) : List Parameter :=
  (a.parameters.getD []).filter Parameter.isCandidate

/-- The names of the candidates, in the order of first declaration. -/
def candidateNames (a : Avatar) : List String := (a.candidates.map Parameter.name).eraseDups

/-- The values for a name that count before any machine is looked at. -/
def shownValues (a : Avatar) (name : String) : List Single :=
  firstDefault a.candidates name ++ valuesOf (a.menu.elim [] Menu.named) name

/-- The values for a name that count in the end. -/
def allValues (a : Avatar) (name : String) : List Single :=
  a.shownValues name ++ valuesOf (a.machines.flatMap StateMachine.named) name

/-- The greatest value of a name before any machine is looked at. -/
def shownPeak (a : Avatar) (name : String) : Int := peak (a.shownValues name)

/-- The greatest value of a name in the end. -/
def fullPeak (a : Avatar) (name : String) : Int := peak (a.allValues name)

theorem shownPeak_le_fullPeak (a : Avatar) (name : String) : a.shownPeak name ≤ a.fullPeak name := by
  unfold shownPeak fullPeak allValues
  rw [peak_append]
  omega

end Avatar

/-! ## Raising by parts -/

namespace BoundTable

theorem contains_iff {t : BoundTable} {name : String} :
    t.contains name = true ↔ ∃ e ∈ t.entries, e.1 = name := by
  simp only [contains, List.any_eq_true, beq_iff_eq]

theorem raiseBy_append (t : BoundTable) (named named' : List (String × Single)) :
    t.raiseBy (named ++ named') = (t.raiseBy named).raiseBy named' := List.foldl_append

theorem raise_of_not_contains {t : BoundTable} {name : String} (h : ¬ t.contains name = true)
    (x : Single) : t.raise name x = t := by
  have hkeep : (t.raise name x).entries = t.entries := by
    refine (List.map_congr_left ?_).trans (List.map_id _)
    rintro ⟨n, b⟩ he
    exact if_neg fun hn => h (contains_iff.2 ⟨_, he, hn⟩)
  exact congrArg BoundTable.mk hkeep

theorem raiseBy_of_not_contains {t : BoundTable} {name : String} (h : ¬ t.contains name = true)
    (xs : List Single) : t.raiseBy (xs.map (name, ·)) = t := by
  induction xs with
  | nil => rfl
  | cons x xs ih =>
    have hcons : t.raiseBy ((x :: xs).map (name, ·))
        = (t.raise name x).raiseBy (xs.map (name, ·)) := rfl
    rw [hcons, raise_of_not_contains h, ih]

/-- Parts that each raise a list raise all lists together. -/
theorem bounds_foldl {α β : Type} (bounds : β → BoundTable) {f : β → α → β}
    {g : α → List (String × Single)} (hf : ∀ s x, bounds (f s x) = (bounds s).raiseBy (g x))
    (xs : List α) (s : β) : bounds (xs.foldl f s) = (bounds s).raiseBy (xs.flatMap g) := by
  induction xs generalizing s with
  | nil => rfl
  | cons x xs ih => rw [List.foldl_cons, ih, hf, List.flatMap_cons, raiseBy_append]

end BoundTable

namespace Analysis

open BoundTable (bounds_foldl)

theorem raiseAll_eq (t : BoundTable) (name : String) (xs : List Single) :
    raiseAll t name xs = t.raiseBy (xs.map (name, ·)) := by
  unfold raiseAll BoundTable.raiseBy
  rw [List.foldl_map]

theorem bounds_control (t : BoundTable) (k : Control) :
    control t k = t.raiseBy (k.parameter.map (·, k.value)).toList := by
  unfold control
  cases k.parameter <;> rfl

theorem bounds_menu (a : Analysis) (m : Menu) : (a.menu m).bounds = a.bounds.raiseBy m.named :=
  bounds_foldl Analysis.bounds
    (fun a page => bounds_foldl id bounds_control page.controls a.bounds) m.opened a

theorem bounds_action (a : Analysis) (d : DriverAction) :
    (a.action d).bounds = a.bounds.raiseBy (d.literals.map (d.target, ·)) := by
  unfold action
  split
  · exact raiseAll_eq _ _ _
  · exact (BoundTable.raiseBy_of_not_contains ‹_› _).symm

theorem bounds_condition (a : Analysis) (k : Condition) :
    (a.condition k).bounds = a.bounds.raiseBy (k.literals.map (k.parameter, ·)) := by
  unfold condition
  split
  · exact raiseAll_eq _ _ _
  · exact (BoundTable.raiseBy_of_not_contains ‹_› _).symm

/-- What no step touches is as it was after all of them. -/
theorem foldl_keeps {α β : Type} (part : Analysis → β) {f : Analysis → α → Analysis}
    (hf : ∀ a x, part (f a x) = part a) (xs : List α) (a : Analysis) :
    part (xs.foldl f a) = part a := by
  induction xs generalizing a with
  | nil => rfl
  | cons x xs ih => rw [List.foldl_cons, ih, hf]

theorem bounds_states (a : Analysis) (ss : List State) : (ss.foldl state a).bounds = a.bounds :=
  foldl_keeps Analysis.bounds (f := state) (fun _ _ => rfl) ss a

theorem bounds_machine (a : Analysis) (m : StateMachine) :
    (a.machine m).bounds = a.bounds.raiseBy m.named := by
  unfold machine StateMachine.named
  rw [bounds_foldl Analysis.bounds bounds_condition, bounds_foldl Analysis.bounds bounds_action,
    bounds_states, BoundTable.raiseBy_append]

/-! ## What is dropped meanwhile -/

theorem pruned_menu (a : Analysis) (m : Menu) : (a.menu m).pruned = a.pruned := by
  unfold menu
  rw [foldl_keeps Analysis.pruned]
  exact fun _ _ => rfl

theorem pruned_action (a : Analysis) (d : DriverAction) : (a.action d).pruned = a.pruned := by
  unfold action; split <;> rfl

theorem pruned_condition (a : Analysis) (k : Condition) : (a.condition k).pruned = a.pruned := by
  unfold condition; split <;> rfl

theorem pruned_machine (a : Analysis) (m : StateMachine) : (a.machine m).pruned = a.pruned := by
  unfold machine
  rw [foldl_keeps Analysis.pruned pruned_condition, foldl_keeps Analysis.pruned pruned_action,
    foldl_keeps Analysis.pruned]
  exact fun _ _ => rfl

end Analysis

/-! ## The whole analysis -/

/-- The candidates that are left after the menu. -/
def Analysis.afterMenu (menu : Option Menu) (parameters : List Parameter) : Analysis :=
  let seeded : Analysis := { bounds := seeds parameters }
  (match menu with
    | none => seeded
    | some m => seeded.menu m).prune

theorem Avatar.analyze_eq {a : Avatar} {parameters : List Parameter}
    (h : a.parameters = some parameters) :
    a.analyze = if (Analysis.afterMenu a.menu parameters).bounds.entries.isEmpty then
        Analysis.afterMenu a.menu parameters
      else (a.machines.foldl Analysis.machine (Analysis.afterMenu a.menu parameters)).prune := by
  unfold analyze
  rw [h]
  rfl

theorem Analysis.afterMenu_raised (menu : Option Menu) (parameters : List Parameter) :
    (afterMenu menu parameters).bounds
        = ((seeds parameters).raiseBy (menu.elim [] Menu.named)).prune maxBound
      ∧ (afterMenu menu parameters).pruned
        = ((seeds parameters).raiseBy (menu.elim [] Menu.named)).above maxBound := by
  cases menu with
  | none => exact ⟨rfl, rfl⟩
  | some m =>
    simp only [afterMenu, prune, bounds_menu, pruned_menu, List.nil_append]
    exact ⟨rfl, rfl⟩

section
variable {a : Avatar} {parameters : List Parameter} (h : a.parameters = some parameters)
include h

theorem Avatar.candidates_eq : a.candidates = parameters.filter Parameter.isCandidate := by
  unfold candidates
  rw [h]
  rfl

theorem Avatar.mem_candidateNames_iff {name : String} :
    name ∈ a.candidateNames ↔ ∃ p ∈ parameters, p.isCandidate = true ∧ p.name = name := by
  unfold candidateNames
  rw [List.mem_eraseDups, List.mem_map, candidates_eq h]
  simp only [List.mem_filter, and_assoc]

/-- Defaults and menu: what is kept and what is dropped. -/
theorem Avatar.afterMenu_eq :
    (Analysis.afterMenu a.menu parameters).bounds = .ofPeaks
        (a.candidateNames.filter fun n => a.shownPeak n ≤ maxBound) a.shownValues
      ∧ (Analysis.afterMenu a.menu parameters).pruned
        = (a.candidateNames.filter fun n => maxBound < a.shownPeak n).map
          fun n => (n, a.shownPeak n) := by
  have hraised : (Analysis.seeds parameters).raiseBy (a.menu.elim [] Menu.named)
      = .ofPeaks a.candidateNames a.shownValues := by
    unfold Analysis.seeds
    rw [BoundTable.seeded, ← candidates_eq h, BoundTable.raiseBy_ofPeaks]
    rfl
  obtain ⟨hb, hp⟩ := Analysis.afterMenu_raised a.menu parameters
  rw [hb, hp, hraised, BoundTable.prune_ofPeaks, BoundTable.above_ofPeaks]
  exact ⟨rfl, rfl⟩

end

namespace Avatar

theorem analyze_of_none {a : Avatar} (h : a.parameters = none) : a.analyze = {} := by
  unfold analyze
  rw [h]

theorem candidateNames_of_none {a : Avatar} (h : a.parameters = none) : a.candidateNames = [] := by
  unfold candidateNames candidates
  rw [h]
  rfl

/-- Candidates are kept if they fit both before and after the machines. -/
theorem analyze_bounds (a : Avatar) :
    a.analyze.bounds = .ofPeaks ((a.candidateNames.filter fun n => a.shownPeak n ≤ maxBound).filter
      fun n => a.fullPeak n ≤ maxBound) a.allValues := by
  cases h : a.parameters with
  | none =>
    rw [analyze_of_none h, candidateNames_of_none h]
    rfl
  | some parameters =>
    rw [analyze_eq h, (afterMenu_eq h).1]
    split
    · rename_i he
      -- nothing is left for the machines
      have hnil : (a.candidateNames.filter fun n => a.shownPeak n ≤ maxBound) = [] := by
        simpa [BoundTable.ofPeaks] using he
      rw [(afterMenu_eq h).1, hnil]
      rfl
    · simp only [Analysis.prune]
      rw [BoundTable.bounds_foldl Analysis.bounds Analysis.bounds_machine, (afterMenu_eq h).1,
        BoundTable.raiseBy_ofPeaks, BoundTable.prune_ofPeaks]
      rfl

/-- Candidates are dropped if they do not fit before the machines, or else after them. -/
theorem analyze_pruned (a : Avatar) :
    a.analyze.pruned
      = ((a.candidateNames.filter fun n => maxBound < a.shownPeak n).map
          fun n => (n, a.shownPeak n))
        ++ ((a.candidateNames.filter fun n => a.shownPeak n ≤ maxBound).filter
          fun n => maxBound < a.fullPeak n).map fun n => (n, a.fullPeak n) := by
  cases h : a.parameters with
  | none =>
    rw [analyze_of_none h, candidateNames_of_none h]
    rfl
  | some parameters =>
    rw [analyze_eq h, (afterMenu_eq h).1]
    split
    · rename_i he
      have hnil : (a.candidateNames.filter fun n => a.shownPeak n ≤ maxBound) = [] := by
        simpa [BoundTable.ofPeaks] using he
      rw [(afterMenu_eq h).2, hnil]
      exact (List.append_nil _).symm
    · simp only [Analysis.prune]
      rw [BoundTable.bounds_foldl Analysis.bounds Analysis.bounds_machine, (afterMenu_eq h).1,
        BoundTable.raiseBy_ofPeaks, BoundTable.above_ofPeaks,
        Analysis.foldl_keeps Analysis.pruned Analysis.pruned_machine, (afterMenu_eq h).2]
      rfl

end Avatar

end AvatarBits
