import AvatarBits.Proofs.Avatar.Rereading
import AvatarBits.Proofs.Json.Results
import AvatarBits.Proofs.Number.Legible

/-!
# Which descriptions are taken

A finite number is read back from its text, and a number that is not finite is
written as null, which is no number. So of the conditions for rereading an avatar
the one on its numbers is that they are finite, and it is needed as much as the
one on nesting. The conditions on positions hold of every avatar that was read.

* `Avatar.Describable`: all numbers are finite, and the description nests no deeper than a text may.

Results:
* `Single.legible_iff`: the numbers that are read back are the finite ones.
* `Avatar.requires`: what taking a description of an avatar requires.
* `Avatar.fits_of_parse`: the positions of an avatar that was read fit.
* `Avatar.parse_iff`: a text that shows an avatar is taken exactly if the avatar can be described.
-/
namespace AvatarBits

open Json

/-! ## Numbers -/

/-- A finite number is read back from its own text. -/
theorem Single.reads_of_isFinite {x : Single} (h : x.IsFinite) : Reads .single x.toValue x := by
  obtain ⟨n, y, hn, hread, hround⟩ := Single.read_numeral h
  have hp := Single.proper_of_numeral? hn
  unfold Single.toValue
  rw [hn]
  refine ⟨.number ⟨hp, by simp [hread]⟩, fun depth _ _ => ?_⟩
  simp [Value.option, Value.node, Reader.single, Node.found, hread, Number.toSingle, hround, bind,
    Except.bind, pure, Except.pure]

theorem Single.depth_toValue (x : Single) : x.toValue.depth = 0 := by
  unfold Single.toValue
  cases x.numeral? <;> rfl

/-- A number is taken only if it is finite: any other is written as null. -/
theorem Single.requires (x : Single) : Requires .single x.toValue x.IsFinite := by
  refine ⟨?_, fun depth y hy => ⟨by rw [x.depth_toValue]; exact Nat.zero_le _, ?_⟩⟩
  · unfold Single.toValue
    cases hn : x.numeral? with
    | none => exact .null
    | some n => exact .number (Single.proper_of_numeral? hn)
  · cases x with
    | finite neg u h => exact ⟨neg, u, h, rfl⟩
    | nan => cases hy
    | infinite => cases hy

/-- **Legible numbers.** The numbers that are read back from their own text are the finite ones. -/
theorem Single.legible_iff {x : Single} : x.Legible ↔ x.IsFinite :=
  ⟨fun h => ((requires x).of_run (Document.scan_text (requires x).proper .compact) h).2,
    fun h => (reads_of_isFinite h).run_text (by rw [x.depth_toValue]; exact Nat.zero_le _) .compact⟩

/-! ## Members that may be left out -/

namespace Json.Asks

variable {α β : Type} {fs : List (RecordField α)} {ms : List (String × Value)} {q : Prop}
  {P : β → Prop}

theorem memberOf {name : String} {r : Reader β} {value : β → Value} {o : Option β}
    {set : Option β → α → α} (ho : ∀ b ∈ o, Requires r (value b) (P b) ∧ value b ≠ .null)
    (h : Asks fs ms q) :
    Asks (.optional name (.option r) set :: fs) (AvatarBits.memberOf name value o ++ ms)
      ((∀ b ∈ o, P b) ∧ q) := by
  cases o with
  | none => exact .imp (.absent h) fun hq => ⟨nofun, hq⟩
  | some b => exact .optional (Requires.option (o := some b) ho) h

theorem stringOf {name : String} {o : Option String} {set : Option String → α → α}
    (h : Asks fs ms q) : Asks (.optional name (.option .string) set :: fs)
      (AvatarBits.memberOf name .string o ++ ms) q :=
  (memberOf (P := fun _ => True) (fun s _ => ⟨.string s, nofun⟩) h).imp And.right

theorem membersOf {name : String} {r : Reader β} {value : β → Value} {xs : List β}
    {set : List β → α → α} (hx : ∀ x ∈ xs, Requires r (value x) (P x)) (h : Asks fs ms q) :
    Asks (.optional name (.list r) set :: fs) (AvatarBits.membersOf name value xs ++ ms)
      ((∀ x ∈ xs, P x) ∧ q) := by
  cases xs with
  | nil => exact .imp (.absent h) fun hq => ⟨nofun, hq⟩
  | cons => exact .optional (Requires.list hx) h

end Json.Asks

/-! ## Parameters and menus -/

theorem Parameter.requires (p : Parameter) :
    Requires record.read p.toValue p.default.IsFinite :=
  (Record.requires (by decide) <| .required (.string _) <| .required (.string _) <|
    .optional (.bool _) <| .optional (Single.requires _) <| .optional (.bool _) (.nil _)).imp
    fun h => h.2.2.2.1

theorem Control.requires (c : Control) : Requires record.read c.toValue c.value.IsFinite := by
  have hlink : ∀ i ∈ c.subMenu, Requires Reader.index (.int (i : Nat)) True
      ∧ Value.int (i : Nat) ≠ .null := fun i _ => ⟨.int i, nofun⟩
  rw [toValue_eq]
  exact (Record.requires (by decide) <| .optional (.string _) <| .optional (.string _) <|
    .stringOf <| .optional (Single.requires _) <| .memberOf hlink (.nil _)).imp fun h => h.2.2.1

theorem MenuPage.requires (p : MenuPage) :
    Requires record.read p.toValue (∀ x ∈ p.numbers, x.IsFinite) :=
  (Record.requires (by decide) <| .optional (.string _) <|
    .optional (.list fun c _ => Control.requires c) (.nil _)).imp
    fun h => List.forall_mem_map.2 h.2.1

theorem Menu.requires (m : Menu) :
    Requires record.read m.toValue (∀ x ∈ m.pages.flatMap MenuPage.numbers, x.IsFinite) :=
  (Record.requires (by decide) <| .optional (.int _) <|
    .optional (.list fun p _ => MenuPage.requires p) (.nil _)).imp
    fun h => List.forall_mem_flatMap.2 h.2.1

/-! ## Conditions and drivers -/

theorem Condition.requires (c : Condition) :
    Requires record.read c.toValue c.threshold.IsFinite :=
  (Record.requires (by decide) <| .required (.string _) <| .required (.string _) <|
    .optional (Single.requires _) (.nil _)).imp fun h => h.2.2.1

/-- What the members of an action behind its kind ask. -/
theorem DriverAction.asks (a : DriverAction) : ∃ blank ms, words.lookup a.kind = some blank
    ∧ a.toValue = .object (("type", .string a.kind) :: ms)
    ∧ ("type" :: blank.fields.map RecordField.name).Nodup
    ∧ Asks blank.fields ms (∀ x ∈ a.numbers, x.IsFinite) := by
  cases a with
  | set name value | add name value =>
    refine ⟨_, _, rfl, rfl, by decide, .imp (.required (.string _) <|
      .required (Single.requires _) (.nil _)) ?_⟩
    simp [numbers]
  | random name low high chance =>
    refine ⟨_, _, rfl, rfl, by decide, .imp (.required (.string _) <|
      .optional (Single.requires _) <| .optional (Single.requires _) <|
      .optional (Single.requires _) (.nil _)) ?_⟩
    simp +contextual [numbers]
  | copy name source convert range =>
    refine ⟨_, _, rfl, rfl, by decide, .imp (.required (.string _) <| .required (.string _) <|
      .optional (.bool _) <| .optional (Single.requires _) <| .optional (Single.requires _) <|
      .optional (Single.requires _) <| .optional (Single.requires _) (.nil _)) ?_⟩
    simp +contextual [numbers]

theorem DriverAction.requires (a : DriverAction) :
    Requires readInside a.toValue (∀ x ∈ a.numbers, x.IsFinite) := by
  obtain ⟨blank, ms, hkind, hvalue, hn, hasks⟩ := asks a
  rw [List.nodup_cons] at hn
  have hname : ∀ m ∈ ms, m.1 ≠ "type" := fun m hm e => hn.1 (e ▸ hasks.named m hm)
  rw [hvalue]
  refine .tagged (fun blank depth content => blank.record.ofContent depth content) (k := blank) ?_
    hasks.proper hname fun depth x hx => Record.of_ofContent hn.2 hasks hx
  simp only [Reader.tagOrPosition, Node.found, Reader.variant, bind, Except.bind, hkind]
  rfl

theorem Behaviour.requires (b : Behaviour) :
    Requires read b.toValue (∀ x ∈ b.numbers, x.IsFinite) := by
  cases b with
  | driver d =>
    have hasks : Asks ParameterDriver.record.fields [("local_only", .bool d.localOnly),
        ("parameters", .list DriverAction.toValue d.actions)]
        (∀ x ∈ (Behaviour.driver d).numbers, x.IsFinite) :=
      .imp (.optional (.bool _) <| .optional (.list fun a _ => DriverAction.requires a) (.nil _))
        fun h => List.forall_mem_flatMap.2 h.2.1
    refine .tagged ofContent (k := true) rfl hasks.proper (by simp) fun depth x hx => ?_
    obtain ⟨y, hy, -⟩ := exists_of_map hx
    exact Record.of_ofContent (by decide) hasks hy
  | other =>
    exact .tagged ofContent (k := false) rfl nofun nofun fun _ _ _ => ⟨nofun, nofun⟩

/-! ## States and machines -/

theorem Transition.requires (t : Transition) :
    Requires record.read t.toValue (∀ x ∈ t.numbers, x.IsFinite) := by
  refine (Record.requires (by decide) <| .stringOf <|
    .optional (.list fun c _ => Condition.requires c) <| .optional (.bool _) <|
    .optional (Single.requires _) <| .optional (Single.requires _) (.nil _)).imp fun h => ?_
  rw [numbers, List.forall_mem_cons, List.forall_mem_cons]
  exact ⟨h.2.2.1, h.2.2.2.1, List.forall_mem_map.2 h.1⟩

theorem State.requires (s : State) :
    Requires record.read s.toValue (∀ x ∈ s.numbers, x.IsFinite) := by
  rw [toValue_eq]
  refine (Record.requires (by decide) <| .required (.string _) <| .optional (.bool _) <|
    .membersOf (fun t _ => Transition.requires t) <|
    .membersOf (fun b _ => Behaviour.requires b) (.nil _)).imp fun h => ?_
  rw [numbers, List.forall_mem_append]
  exact ⟨List.forall_mem_flatMap.2 h.2.2.1, List.forall_mem_flatMap.2 h.2.2.2.1⟩

namespace StateMachine

theorem mem_childNumbers_iff {ns : List (Nested StateMachine)} {x : Single} :
    x ∈ childNumbers ns ↔ ∃ n ∈ ns,
      x ∈ n.machine.numbers ∨ x ∈ n.transitions.flatMap Transition.numbers := by
  refine ⟨fun h => ?_, fun ⟨n, hn, hx⟩ => mem_childNumbers hn hx⟩
  induction ns with
  | nil => cases h
  | cons n ns ih =>
    rw [childNumbers, List.mem_append, List.mem_append] at h
    rcases h with h | h
    · exact ⟨n, List.mem_cons_self, h⟩
    · obtain ⟨k, hk, hx⟩ := ih h
      exact ⟨k, List.mem_cons_of_mem _ hk, hx⟩

/-- A nested machine is taken only if its machine is. -/
theorem requires_child {machine : Reader StateMachine} {n : Nested StateMachine}
    (hm : Requires machine n.machine.toValue (∀ x ∈ n.machine.numbers, x.IsFinite)) :
    Requires (nestedRecord machine).read (childValue n) (∀ x,
      (x ∈ n.machine.numbers ∨ x ∈ n.transitions.flatMap Transition.numbers) → x.IsFinite) := by
  rw [childValue_eq]
  refine (Record.requires (by simp [nestedRecord, RecordField.required, RecordField.optional]) <|
    .required hm <| .membersOf (fun t _ => Transition.requires t) (.nil _)).imp fun h x hx => ?_
  exact hx.elim (h.1 x) (List.forall_mem_flatMap.2 h.2.1 x)

/-- A machine is taken only if the machines right in it are. -/
theorem requires_of_children {machine : Reader StateMachine} {m : StateMachine}
    (hc : ∀ n ∈ m.children,
      Requires machine n.machine.toValue (∀ x ∈ n.machine.numbers, x.IsFinite)) :
    Requires (record machine).read m.toValue (∀ x ∈ m.numbers, x.IsFinite) := by
  rw [toValue_eq]
  refine (Record.requires (by simp [record, RecordField.optional]) <| .optional (.string _) <|
    .stringOf <| .optional (.list fun s _ => State.requires s) <|
    .membersOf (fun t _ => Transition.requires t) <|
    .membersOf (fun t _ => Transition.requires t) <|
    .membersOf (fun n hn => requires_child (hc n hn)) <|
    .membersOf (fun b _ => Behaviour.requires b) (.nil _)).imp ?_
  rintro ⟨-, hstates, hentry, hany, hnested, hbehaviours, -⟩
  rw [numbers_eq]
  simp only [List.forall_mem_append]
  refine ⟨⟨⟨⟨List.forall_mem_flatMap.2 hstates, List.forall_mem_flatMap.2 hentry⟩,
    List.forall_mem_flatMap.2 hany⟩, fun x hx => ?_⟩, List.forall_mem_flatMap.2 hbehaviours⟩
  obtain ⟨n, hn, hx⟩ := mem_childNumbers_iff.1 hx
  exact hnested n hn x hx

/-- A reader for any levels of machines takes a machine only if all in it is taken. -/
theorem requires_levels {d : Nat} {m : StateMachine} (hd : m.toValue.depth < d) (levels : Nat) :
    Requires (readLevels levels) m.toValue (∀ x ∈ m.numbers, x.IsFinite) := by
  induction d generalizing levels m with
  | zero => omega
  | succ d ih =>
    have hc (levels : Nat) : ∀ n ∈ m.children,
        Requires (readLevels levels) n.machine.toValue (∀ x ∈ n.machine.numbers, x.IsFinite) :=
      fun n hn => ih (Nat.lt_of_lt_of_le (depth_child hn) (Nat.lt_succ_iff.1 hd)) levels
    cases levels with
    | zero => exact ⟨(requires_of_children (hc 0)).proper, nofun⟩
    | succ levels => exact requires_of_children (hc levels)

theorem requires (m : StateMachine) :
    Requires StateMachine.read m.toValue (∀ x ∈ m.numbers, x.IsFinite) :=
  requires_levels (Nat.lt_succ_self _) _

end StateMachine

/-! ## Controllers -/

theorem ControllerParameter.requires (p : ControllerParameter) :
    Requires record.read p.toValue p.default.IsFinite :=
  (Record.requires (by decide) <| .required (.string _) <| .required (.string _) <|
    .optional (Single.requires _) (.nil _)).imp fun h => h.2.2.1

theorem ControllerLayer.requires (l : ControllerLayer) :
    Requires record.read l.toValue (∀ x ∈ l.numbers, x.IsFinite) :=
  (Record.requires (by decide) <| .required (.string _) <| .optional (.int _) <|
    .optional (Single.requires _) <| .optional (StateMachine.requires _) (.nil _)).imp
    fun h => List.forall_mem_cons.2 ⟨h.2.2.1, h.2.2.2.1⟩

theorem Controller.requires (c : Controller) :
    Requires record.read c.toValue (∀ x ∈ c.numbers, x.IsFinite) := by
  refine (Record.requires (by decide) <| .optional (.string _) <|
    .optional (.list fun p _ => ControllerParameter.requires p) <|
    .optional (.list fun l _ => ControllerLayer.requires l) (.nil _)).imp fun h => ?_
  rw [numbers, List.forall_mem_append]
  exact ⟨List.forall_mem_map.2 h.2.1, List.forall_mem_flatMap.2 h.2.2.1⟩

/-! ## Avatars -/

theorem PlayableLayer.requires (l : PlayableLayer) :
    Requires record.read l.toValue (∀ c ∈ l.controller, ∀ x ∈ c.numbers, x.IsFinite) :=
  (Record.requires (by decide) <| .required (.string _) <|
    .optional (.option fun c _ => ⟨Controller.requires c, nofun⟩) (.nil _)).imp fun h => h.2.1

theorem Avatar.requires (a : Avatar) :
    Requires record.read a.toValue (∀ x ∈ a.numbers, x.IsFinite) := by
  refine (Record.requires (by decide) <|
    .optional (.option fun ps _ => ⟨.list fun p _ => Parameter.requires p, nofun⟩) <|
    .optional (.option fun m _ => ⟨Menu.requires m, nofun⟩) <|
    .optional (.list fun l _ => PlayableLayer.requires l) (.nil _)).imp ?_
  rintro ⟨hparameters, hmenu, hlayers, -⟩
  rw [numbers, List.forall_mem_append, List.forall_mem_append]
  refine ⟨⟨?_, ?_⟩, List.forall_mem_flatMap.2 ?_⟩
  · cases hp : a.parameters with
    | none => exact List.forall_mem_nil _
    | some ps => exact List.forall_mem_map.2 (hparameters ps hp)
  · cases hm : a.menu with
    | none => exact List.forall_mem_nil _
    | some m => exact hmenu m hm
  · intro c hc
    obtain ⟨l, hl, hc⟩ := List.mem_filterMap.1 hc
    exact hlayers l hl c hc

/-! ## Positions -/

theorem Control.gives : Gives record.read fun c => ∀ i ∈ c.subMenu, i < Numeral.longTop :=
  Record.gives nofun <| .any (fun _ _ h => h) <| .any (fun _ _ h => h) <| .any (fun _ _ h => h) <|
    .any (fun _ _ h => h) <| .given (.option .index) (fun _ _ h _ => h) .nil

theorem MenuPage.gives : Gives record.read fun p =>
    ∀ c ∈ p.controls, ∀ i ∈ c.subMenu, i < Numeral.longTop :=
  Record.gives nofun <| .any (fun _ _ h => h) <|
    .given (.list Control.gives) (fun _ _ h _ => h) .nil

theorem Menu.gives : Gives record.read fun m => m.root < Numeral.longTop
    ∧ ∀ p ∈ m.pages, ∀ c ∈ p.controls, ∀ i ∈ c.subMenu, i < Numeral.longTop :=
  Record.gives ⟨by decide, nofun⟩ <| .given .index (fun _ _ h hm => ⟨h, hm.2⟩) <|
    .given (.list MenuPage.gives) (fun _ _ h hm => ⟨hm.1, h⟩) .nil

theorem ControllerLayer.gives : Gives record.read fun l =>
    wordMin ≤ l.syncedLayer ∧ l.syncedLayer ≤ wordMax :=
  Record.gives (by decide) <| .any (fun _ _ h => h) <| .given .word (fun _ _ h _ => h) <|
    .any (fun _ _ h => h) <| .any (fun _ _ h => h) .nil

theorem Controller.gives : Gives record.read fun c =>
    ∀ l ∈ c.layers, wordMin ≤ l.syncedLayer ∧ l.syncedLayer ≤ wordMax :=
  Record.gives nofun <| .any (fun _ _ h => h) <| .any (fun _ _ h => h) <|
    .given (.list ControllerLayer.gives) (fun _ _ h _ => h) .nil

theorem PlayableLayer.gives : Gives record.read fun l =>
    ∀ c ∈ l.controller, ∀ k ∈ c.layers, wordMin ≤ k.syncedLayer ∧ k.syncedLayer ≤ wordMax :=
  Record.gives nofun <| .any (fun _ _ h => h) <|
    .given (.option Controller.gives) (fun _ _ h _ => h) .nil

/-- The positions of an avatar that was read fit. -/
theorem Avatar.gives : Gives record.read Fits :=
  have hcontrollers (ls : List PlayableLayer) (a : Avatar) (h : ∀ l ∈ ls, ∀ c ∈ l.controller,
      ∀ k ∈ c.layers, wordMin ≤ k.syncedLayer ∧ k.syncedLayer ≤ wordMax) (ha : a.Fits) :
      Fits { a with layers := ls } :=
    ⟨ha.root, ha.links, fun c hc => by
      obtain ⟨l, hl, hc⟩ := List.mem_filterMap.1 hc
      exact h l hl c hc⟩
  Record.gives ⟨nofun, nofun, nofun⟩ <| .any (fun _ _ h => ⟨h.root, h.links, h.layers⟩) <|
    .given (.option Menu.gives)
      (fun _ _ h ha => ⟨fun m hm => (h m hm).1, fun m hm => (h m hm).2, ha.layers⟩) <|
    .given (.list PlayableLayer.gives) hcontrollers .nil

theorem Avatar.fits_of_parse {t : String} {a : Avatar} (h : Avatar.parse t = .ok a) : a.Fits :=
  Avatar.gives.of_run h

/-! ## Texts -/

/-- All numbers of an avatar are finite, and it nests no deeper than a text may. -/
structure Avatar.Describable (a : Avatar) : Prop where
  finite : ∀ x ∈ a.numbers, x.IsFinite
  depth : a.toValue.depth ≤ maxDepth

instance (a : Avatar) : Decidable a.Describable :=
  decidable_of_iff ((∀ x ∈ a.numbers, x.IsFinite) ∧ a.toValue.depth ≤ maxDepth)
    ⟨fun h => ⟨h.1, h.2⟩, fun h => ⟨h.finite, h.depth⟩⟩

/-- The description of an avatar shows it, with or without a line break behind it. -/
theorem Avatar.scan_describe {a : Avatar} {t : String}
    (ht : t = a.describe ∨ t = a.describe ++ "\n") : Document.scan t = ⟨a.toValue.node, none⟩ := by
  rcases ht with rfl | rfl
  · exact Document.scan_text a.requires.proper .indented
  · exact Document.scan_text_line a.requires.proper .indented

/-- **Acceptance.** A text that shows an avatar as a value is taken exactly if all numbers of the
avatar are finite and the value nests no deeper than a text may; then it is that avatar that is
read. -/
theorem Avatar.parse_iff {a : Avatar} (hf : a.Fits) {t : String}
    (ht : Document.scan t = ⟨a.toValue.node, none⟩) {b : Avatar} :
    Avatar.parse t = .ok b ↔ a.Describable ∧ b = a := by
  have hreads (h : a.Describable) : Avatar.parse t = .ok a :=
    (Avatar.reads (fun x hx => Single.legible_iff.2 (h.finite x hx)) hf).run_of_scan ht h.depth
  constructor
  · intro h
    obtain ⟨hd, hn⟩ := a.requires.of_run ht h
    exact ⟨⟨hn, hd⟩, Except.ok.inj (h.symm.trans (hreads ⟨hn, hd⟩))⟩
  · rintro ⟨ha, rfl⟩
    exact hreads ha

end AvatarBits
