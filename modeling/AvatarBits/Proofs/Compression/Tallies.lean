import AvatarBits.Proofs.Analysis.Counting
import AvatarBits.Proofs.Compression.Report

/-!
# Tallies of a session

A session keeps one tally, and every compression adds what it looked at and what
it generated. What it adds can be said from the avatar and the outcome alone: the
pages that can be reached and their controls, what machines have to do with the
candidates that are left after the menu, and the size of the output, if there is
one.

* `Output.tally`: the size of an output.
* `Avatar.Counts`, `Avatar.Adds`: what a compression adds.
* `Tally.after`: the tally of a session after some compressions.

Results:
* `Avatar.compress_tally`: a compression counts its analysis and its output.
* `Tally.after_exact`: the tally of a session is the sum of what its compressions add.
-/
namespace AvatarBits

/-! ## The size of an output -/

/-- What was generated for an output. -/
def Output.tally (o : Output) : Tally where
  packed := o.report.length
  bits := (o.report.map Entry.width).sum
  newStates := (o.layers.map fun l => l.states.length).sum
  newTransitions := (o.layers.map fun l => l.transitions.length).sum

theorem report_widths (layout : LayerLayout) (wd : Bool) (base : Nat) (codecs : List Codec) :
    (report layout wd base codecs).map Entry.width = codecs.map Codec.width := by
  induction codecs generalizing base with
  | nil => rfl
  | cons c codecs ih =>
    rw [report, List.map_cons, List.map_cons, ih]
    rfl

theorem additive_pack (parameters : List Parameter) (fx : Controller) (layout : LayerLayout)
    (wd : Bool) (pruned : List (String × Int)) :
    Tally.Additive fun codecs => (pack parameters fx codecs layout wd pruned).tally where
  nil := rfl
  cons c codecs := by
    simp [Output.tally, pack, report_length, report_widths, Tally.add_eq, Nat.add_comm]

/-- A compression counts what its analysis did, and its output, if there is one. -/
theorem Avatar.compress_tally (config : Config) (a : Avatar) :
    (a.compress config).2
      = a.analyze.tally + ((Output.of? (a.compress config).1).elim {} Output.tally) := by
  unfold compress
  cases hp : a.parameters with
  | none =>
    rw [analyze_of_none hp]
    rfl
  | some parameters =>
    dsimp only
    split
    · rfl
    · cases a.fx? with
      | none => rfl
      | some fx =>
        dsimp only
        split
        · rfl
        · refine ((additive_pack parameters fx config.layout _ a.analyze.pruned).foldl id
            (P := fun _ => True) ?_ _ trivial).2
          intro t c _
          refine ⟨trivial, congrArg (t + ·) ?_⟩
          simp [Codec.tally, Output.tally, pack, report, Tally.codec, Codec.entry]

/-! ## What a compression adds -/

/-- What a compression of an avatar with a list of parameters adds to each count. -/
structure Avatar.Counts (config : Config) (a : Avatar) (parameters : List Parameter) (t : Tally) :
    Prop where
  /-- The menu is opened page by page: each page that can be reached once, and no other. -/
  menu : ∃ reached : List (Nat × MenuPage), (reached.map Prod.fst).Nodup
    ∧ (∀ i page, (i, page) ∈ reached ↔ ∃ m, a.menu = some m ∧ m.Reaches i page)
    ∧ a.menu.elim [] Menu.opened = reached.map Prod.snd
    ∧ t.pages = reached.length ∧ t.controls = (reached.map fun p => p.2.controls.length).sum
  /-- Machines are looked at if a candidate is left after the menu. -/
  machines : ∃ alive : List String, (∀ n, n ∈ alive ↔ a.Survives parameters n)
    ∧ (alive = [] → t.states = 0 ∧ t.actions = 0 ∧ t.conditions = 0)
    ∧ (alive ≠ [] → t.states = a.total (fun m => m.states.length)
      ∧ t.actions = a.total (StateMachine.actionsOn fun n => n ∈ alive)
      ∧ t.conditions = a.total (StateMachine.conditionsOn fun n => n ∈ alive))
  pruned : t.pruned = a.analyze.pruned.length
  packed : ∀ o, (a.compress config).1 = .ok (.packed o) →
    t.packed = o.report.length ∧ t.bits = (o.report.map Entry.width).sum
      ∧ t.newStates = (o.layers.map fun l => l.states.length).sum
      ∧ t.newTransitions = (o.layers.map fun l => l.transitions.length).sum
  skipped : (∀ o, (a.compress config).1 ≠ .ok (.packed o)) →
    t.packed = 0 ∧ t.bits = 0 ∧ t.newStates = 0 ∧ t.newTransitions = 0

/-- What a compression adds to the tally of its session. -/
inductive Avatar.Adds (config : Config) (a : Avatar) : Tally → Prop
  | nothing : a.parameters = none → Adds config a {}
  | counts {parameters : List Parameter} {t : Tally} :
    a.parameters = some parameters → a.Counts config parameters t → Adds config a t

namespace Avatar

/-- The pages of a menu that may be missing. -/
theorem opened_once (a : Avatar) :
    ∃ reached : List (Nat × MenuPage), (reached.map Prod.fst).Nodup
      ∧ (∀ i page, (i, page) ∈ reached ↔ ∃ m, a.menu = some m ∧ m.Reaches i page)
      ∧ a.menu.elim [] Menu.opened = reached.map Prod.snd := by
  cases hm : a.menu with
  | none => exact ⟨[], List.nodup_nil, by simp, rfl⟩
  | some m =>
    obtain ⟨reached, hnodup, hiff, hopened⟩ := m.opened_once
    exact ⟨reached, hnodup, by simp [hiff], hopened⟩

theorem compress_counts (config : Config) {a : Avatar} {parameters : List Parameter}
    (hp : a.parameters = some parameters) :
    a.Counts config parameters (a.compress config).2 := by
  have hcount := compress_tally config a
  rw [analyze_tally hp] at hcount
  refine ⟨?menu, ⟨a.survivors, fun n => mem_survivors_iff hp, ?dead, ?alive⟩, ?pruned, ?packed,
    ?skipped⟩
  case menu =>
    obtain ⟨reached, hnodup, hiff, hopened⟩ := a.opened_once
    refine ⟨reached, hnodup, hiff, hopened, ?_⟩
    rw [hcount, hopened]
    cases Output.of? (a.compress config).1
      <;> simp [Tally.add_eq, Tally.ofPages, Tally.ofMachines, Output.tally, Function.comp_def]
  case dead =>
    intro hs
    rw [hcount, visited, if_pos hs]
    cases Output.of? (a.compress config).1 <;> exact ⟨rfl, rfl, rfl⟩
  case alive =>
    intro hs
    rw [hcount, visited, if_neg hs]
    simp only [← sum_machines]
    cases Output.of? (a.compress config).1
      <;> simp [Tally.add_eq, Tally.ofPages, Tally.ofMachines, Output.tally]
  case pruned =>
    rw [hcount]
    cases Output.of? (a.compress config).1
      <;> simp [Tally.add_eq, Tally.ofPages, Tally.ofMachines, Output.tally]
  case packed =>
    intro o ho
    rw [hcount, ho]
    simp [Tally.add_eq, Tally.ofPages, Tally.ofMachines, Output.tally, Output.of?]
  case skipped =>
    intro hskip
    have hnone : Output.of? (a.compress config).1 = none :=
      Option.eq_none_iff_forall_ne_some.2 fun o ho => hskip o (Output.eq_of_of? ho)
    rw [hcount, hnone]
    exact ⟨rfl, rfl, rfl, rfl⟩

theorem compress_adds (config : Config) (a : Avatar) : a.Adds config (a.compress config).2 := by
  cases hp : a.parameters with
  | none =>
    have hnone : (a.compress config).2 = {} := by
      unfold compress
      rw [hp]
    exact hnone ▸ .nothing hp
  | some parameters => exact .counts hp (compress_counts config hp)

end Avatar

/-! ## Sessions -/

/-- The tally of a session after compressing some avatars, one after the other. -/
def Tally.after (t : Tally) (runs : List (Config × Avatar)) : Tally :=
  runs.foldl (fun t (config, a) => t + (a.compress config).2) t

/-- **Exact tallies.** Whatever avatars a session compresses, with whatever options, its tally grows
by one summand for each compression, and each summand is what that avatar and its outcome say:
nothing without a list of parameters; and else, whatever way the links of the menu run, the pages
that can be reached and their controls, each page once; the states of all machines, and the actions
and conditions on candidates that are left after the menu, if there are any; the candidates that are
dropped; and the entries, bits, states and transitions of the output, if there is one. -/
theorem Tally.after_exact (t : Tally) (runs : List (Config × Avatar)) :
    ∃ added : List Tally, List.Forall₂ (fun run u => run.2.Adds run.1 u) runs added
      ∧ t.after runs = added.foldl (· + ·) t := by
  induction runs generalizing t with
  | nil => exact ⟨[], .nil, rfl⟩
  | cons run runs ih =>
    obtain ⟨added, hadded, hafter⟩ := ih (t + (run.2.compress run.1).2)
    exact ⟨_ :: added, .cons (Avatar.compress_adds run.1 run.2) hadded, hafter⟩

/-- Of three compressions the first adds nothing, the second looks at no machine, since its candidate
is dropped before, and the third packs one parameter. -/
example :
    let compares : Transition := { conditions := [⟨.greater, "Mode", 3⟩, ⟨.isSet, "Other", 0⟩] }
    let layer : ControllerLayer :=
      { name := "Modes", machine := { states := [{ name := "on" }], entryTransitions := [compares] } }
    let avatar (default : Single) : Avatar :=
      { parameters := some [⟨"Mode", .int, true, default, false⟩]
        layers := [⟨.fx, some { layers := [layer, { layer with syncedLayer := 0 }] }⟩] }
    ({} : Tally).after [({}, {}), ({}, avatar 200), ({}, avatar 0)]
      = { states := 1, conditions := 1, pruned := 1, packed := 1, bits := 2, newStates := 11
          newTransitions := 22 } := by decide +kernel

end AvatarBits
