import AvatarBits.Avatar.Reading
import AvatarBits.Avatar.Writing
import AvatarBits.Proofs.Json.Records

/-!
# Avatars are read back from their descriptions

Every part of an avatar is written as the members of an object that fill the
record that it is read with. A member is left out only where the record's own
first value for the field is the empty one.

Numbers are not looked into: whether the shortest digits of one read back as
that number is asked of each. What a machine nests is bounded by what its text
nests, so the levels that a reader of machines allows for are enough.

* `Avatar.numbers`: all numbers of an avatar.
* `Avatar.Fits`: positions fit eight bytes, references between layers four.

Results:
* `Avatar.parse_describe`: an avatar is read back from its description.
-/
namespace AvatarBits

open Json

/-! ## Numbers -/

/-- A number is read back from its own text. One that is not finite is not: its text is null. -/
def Single.Legible (x : Single) : Prop := Reader.run .single (x.toValue.text .compact) = .ok x

instance (x : Single) : Decidable x.Legible :=
  match h : Reader.run .single (x.toValue.text .compact) with
  | .ok y => decidable_of_iff (y = x) (by rw [Single.Legible, h, Except.ok.injEq])
  | .error _ => .isFalse (by rw [Single.Legible, h]; nofun)

theorem Single.Legible.reads {x : Single} (h : x.Legible) : Reads .single x.toValue x := by
  unfold Single.Legible Single.toValue at h
  unfold Single.toValue
  cases hn : x.numeral? with
  | none =>
    rw [hn, Reader.run, Value.option, Document.scan_text .null] at h
    cases h
  | some n =>
    have hp := Single.proper_of_numeral? hn
    rw [hn, Reader.run, Value.option, Document.scan_text (.number hp)] at h
    cases hr : n.read with
    | none => simp [Value.node, Reader.single, Node.found, hr, bind, Except.bind] at h
    | some i =>
      have hx : i.toSingle = x := by
        simpa [Value.node, Reader.single, Node.found, hr, bind, Except.bind, pure, Except.pure]
          using h
      refine ⟨.number ⟨hp, by simp [hr]⟩, fun depth _ _ => ?_⟩
      simp [Value.option, Value.node, Reader.single, Node.found, hr, hx, bind, Except.bind, pure,
        Except.pure]

/-- The numbers of a page. -/
def MenuPage.numbers (p : MenuPage) : List Single := p.controls.map Control.value

/-- The numbers of a driver action. -/
def DriverAction.numbers : DriverAction → List Single
  | .set _ value | .add _ value => [value]
  | .random _ low high chance => [low, high, chance]
  | .copy _ _ _ range => [range.sourceMin, range.sourceMax, range.destMin, range.destMax]

/-- The numbers of a behaviour. -/
def Behaviour.numbers (b : Behaviour) : List Single := b.actions.flatMap DriverAction.numbers

/-- The numbers of a transition. -/
def Transition.numbers (t : Transition) : List Single :=
  t.exitTime :: t.duration :: t.conditions.map Condition.threshold

/-- The numbers of a state. -/
def State.numbers (s : State) : List Single :=
  s.transitions.flatMap Transition.numbers ++ s.behaviours.flatMap Behaviour.numbers

namespace StateMachine

mutual

/-- The numbers of a machine and of all machines in it. -/
def numbers : StateMachine → List Single
  | ⟨_, _, states, entry, anyState, children, behaviours⟩ =>
    states.flatMap State.numbers ++ entry.flatMap Transition.numbers
      ++ anyState.flatMap Transition.numbers ++ childNumbers children
      ++ behaviours.flatMap Behaviour.numbers

/-- The numbers of nested machines. -/
def childNumbers : List (Nested StateMachine) → List Single
  | [] => []
  | ⟨m, transitions⟩ :: rest =>
    numbers m ++ transitions.flatMap Transition.numbers ++ childNumbers rest

end

end StateMachine

/-- The numbers of a layer. -/
def ControllerLayer.numbers (l : ControllerLayer) : List Single :=
  l.defaultWeight :: l.machine.numbers

/-- The numbers of a controller. -/
def Controller.numbers (c : Controller) : List Single :=
  c.parameters.map ControllerParameter.default ++ c.layers.flatMap ControllerLayer.numbers

/-- The numbers of an avatar. -/
def Avatar.numbers (a : Avatar) : List Single :=
  (a.parameters.getD []).map Parameter.default
    ++ (a.menu.elim [] Menu.pages).flatMap MenuPage.numbers
    ++ a.controllers.flatMap Controller.numbers

/-! ## Members that may be left out

A record's first value has the empty value for such a field. -/

namespace Json.Fills

variable {α β : Type} {fs : List (RecordField α)} {ms : List (String × Value)} {x y : α}

theorem memberOf {name : String} {r : Reader β} {value : β → Value} {o : Option β}
    {set : Option β → α → α} (ho : ∀ b ∈ o, Reads r (value b) b ∧ value b ≠ .null)
    (hx : set none x = x) (h : Fills fs ms (set o x) y) :
    Fills (.optional name (.option r) set :: fs) (AvatarBits.memberOf name value o ++ ms) x y := by
  cases o with
  | none => exact .absent rfl (hx ▸ h)
  | some b => exact .optional ((ho b rfl).1.option_some (ho b rfl).2) h

theorem membersOf {name : String} {r : Reader β} {value : β → Value} {xs : List β}
    {set : List β → α → α} (hr : Reads (.list r) (.list value xs) xs)
    (hx : set [] x = x) (h : Fills fs ms (set xs x) y) :
    Fills (.optional name (.list r) set :: fs) (AvatarBits.membersOf name value xs ++ ms) x y := by
  cases xs with
  | nil => exact .absent rfl (hx ▸ h)
  | cons => exact .optional hr h

end Json.Fills

/-! ## Parameters and menus -/

theorem Parameter.reads {p : Parameter} (h : p.default.Legible) :
    Reads record.read p.toValue p :=
  Record.reads (by decide) <| .required (.string _) <| .required (.choice p.type.lookup_word) <|
    .optional (.bool _) <| .optional h.reads <| .optional (.bool _) (.nil _)

theorem Control.toValue_eq (c : Control) : c.toValue = .object (("name", .string c.name) ::
    ("type", .string c.type.word) :: (memberOf "parameter" .string c.parameter ++
      ("value", c.value.toValue) ::
        (memberOf "sub_menu" (fun i : Nat => .int i) c.subMenu ++ []))) := by
  simp [toValue]

theorem Control.reads {c : Control} (hv : c.value.Legible)
    (hm : ∀ i ∈ c.subMenu, i < Numeral.longTop) : Reads record.read c.toValue c := by
  rw [toValue_eq]
  exact Record.reads (by decide) <| .optional (.string _) <|
    .optional (.choice c.type.lookup_word) <|
    .memberOf (fun s _ => ⟨.string s, nofun⟩) rfl <| .optional hv.reads <|
    .memberOf (fun i hi => ⟨.index (hm i hi), nofun⟩) rfl (.nil _)

theorem MenuPage.reads {p : MenuPage} (hv : ∀ x ∈ p.numbers, x.Legible)
    (hm : ∀ c ∈ p.controls, ∀ i ∈ c.subMenu, i < Numeral.longTop) :
    Reads record.read p.toValue p :=
  Record.reads (by decide) <| .optional (.string _) <|
    .optional (.list _ fun c hc => Control.reads (hv _ (List.mem_map_of_mem hc)) (hm c hc)) (.nil _)

theorem Menu.reads {m : Menu} (hv : ∀ p ∈ m.pages, ∀ x ∈ p.numbers, x.Legible)
    (hroot : m.root < Numeral.longTop)
    (hm : ∀ p ∈ m.pages, ∀ c ∈ p.controls, ∀ i ∈ c.subMenu, i < Numeral.longTop) :
    Reads record.read m.toValue m :=
  Record.reads (by decide) <| .optional (.index hroot) <|
    .optional (.list _ fun p hp => MenuPage.reads (hv p hp) (hm p hp)) (.nil _)

/-! ## Conditions and drivers -/

theorem Condition.reads {c : Condition} (h : c.threshold.Legible) :
    Reads record.read c.toValue c :=
  Record.reads (by decide) <| .required (.choice c.mode.lookup_word) <|
    .required (.string _) <| .optional h.reads (.nil _)

/-- What is written of an action behind its kind. -/
theorem DriverAction.fills {a : DriverAction} (h : ∀ x ∈ a.numbers, x.Legible) :
    ∃ blank ms, words.lookup a.kind = some blank
      ∧ a.toValue = .object (("type", .string a.kind) :: ms)
      ∧ ("type" :: blank.fields.map RecordField.name).Nodup ∧ Fills blank.fields ms blank a := by
  cases a with
  | set name value | add name value =>
    exact ⟨_, _, rfl, rfl, by decide, .required (.string _) <|
      .required (h value (by simp [numbers])).reads (.nil _)⟩
  | random name low high chance =>
    exact ⟨_, _, rfl, rfl, by decide, .required (.string _) <|
      .optional (h low (by simp [numbers])).reads <| .optional (h high (by simp [numbers])).reads <|
      .optional (h chance (by simp [numbers])).reads (.nil _)⟩
  | copy name source convert range =>
    exact ⟨_, _, rfl, rfl, by decide, .required (.string _) <| .required (.string _) <|
      .optional (.bool _) <| .optional (h range.sourceMin (by simp [numbers])).reads <|
      .optional (h range.sourceMax (by simp [numbers])).reads <|
      .optional (h range.destMin (by simp [numbers])).reads <|
      .optional (h range.destMax (by simp [numbers])).reads (.nil _)⟩

theorem DriverAction.reads {a : DriverAction} (h : ∀ x ∈ a.numbers, x.Legible) :
    Reads readInside a.toValue a := by
  obtain ⟨blank, ms, hkind, hvalue, hn, hfills⟩ := fills h
  rw [List.nodup_cons] at hn
  have hname : ∀ m ∈ ms, m.1 ≠ "type" := fun m hm e => hn.1 (e ▸ hfills.name_mem m hm)
  rw [hvalue]
  refine .tagged (fun blank depth content => blank.record.ofContent depth content) (k := blank) ?_
    hfills.sound hname fun depth hd hms => Record.ofContent_fills hn.2 hfills hd hms
  simp only [Reader.tagOrPosition, Node.found, Reader.variant, bind, Except.bind, hkind]
  rfl

theorem ParameterDriver.fills {d : ParameterDriver}
    (h : ∀ a ∈ d.actions, ∀ x ∈ a.numbers, x.Legible) :
    Fills record.fields [("local_only", .bool d.localOnly),
      ("parameters", .list DriverAction.toValue d.actions)] record.blank d :=
  .optional (.bool _) <| .optional (.list _ fun a ha => DriverAction.reads (h a ha)) (.nil _)

/-- A behaviour of what its kind leaves. -/
def Behaviour.ofContent (drives : Bool) (depth : Nat) (content : Content) :
    Except Cause Behaviour :=
  if drives then .driver <$> ParameterDriver.record.ofContent depth content
  else (fun _ => .other) <$> content.unit

theorem Behaviour.reads {b : Behaviour} (h : ∀ x ∈ b.numbers, x.Legible) :
    Reads read b.toValue b := by
  cases b with
  | driver d =>
    have hfills := ParameterDriver.fills (d := d) fun a ha x hx =>
      h x (List.mem_flatMap.2 ⟨a, ha, hx⟩)
    refine .tagged ofContent (k := true) rfl hfills.sound (by simp) ?_
    intro depth hd hms
    rw [ofContent, if_pos rfl, Record.ofContent_fills (by decide) hfills hd hms]
    rfl
  | other =>
    exact .tagged ofContent (k := false) rfl (by simp) (by simp)
      fun _ _ _ => rfl

/-! ## States and machines -/

theorem Transition.reads {t : Transition} (h : ∀ x ∈ t.numbers, x.Legible) :
    Reads record.read t.toValue t := by
  rw [numbers, List.forall_mem_cons, List.forall_mem_cons] at h
  exact Record.reads (by decide) <| .memberOf (fun s _ => ⟨.string s, nofun⟩) rfl <|
    .optional (.list _ fun c hc => Condition.reads (h.2.2 _ (List.mem_map_of_mem hc))) <|
    .optional (.bool _) <| .optional h.1.reads <| .optional h.2.1.reads (.nil _)

theorem Transition.reads_list {ts : List Transition}
    (h : ∀ x ∈ ts.flatMap numbers, x.Legible) : Reads readList (.list toValue ts) ts :=
  .list _ fun t ht => Transition.reads fun x hx => h x (List.mem_flatMap.2 ⟨t, ht, hx⟩)

theorem Behaviour.reads_list {bs : List Behaviour}
    (h : ∀ x ∈ bs.flatMap numbers, x.Legible) : Reads (.list read) (.list toValue bs) bs :=
  .list _ fun b hb => Behaviour.reads fun x hx => h x (List.mem_flatMap.2 ⟨b, hb, hx⟩)

theorem State.toValue_eq (s : State) : s.toValue = .object (("name", .string s.name) ::
    ("write_default_values", .bool s.writeDefaults) ::
      (membersOf "transitions" Transition.toValue s.transitions ++
        (membersOf "behaviours" Behaviour.toValue s.behaviours ++ []))) := by
  simp [toValue]

theorem State.reads {s : State} (h : ∀ x ∈ s.numbers, x.Legible) :
    Reads record.read s.toValue s := by
  rw [numbers, List.forall_mem_append] at h
  rw [toValue_eq]
  exact Record.reads (by decide) <| .required (.string _) <| .optional (.bool _) <|
    .membersOf (Transition.reads_list h.1) rfl <| .membersOf (Behaviour.reads_list h.2) rfl (.nil _)

namespace StateMachine

/-- A nested machine as it is written. -/
def childValue (n : Nested StateMachine) : Value := nestedValue n.machine.toValue n.transitions

theorem childValue_eq (n : Nested StateMachine) :
    childValue n = .object (("state_machine", n.machine.toValue) ::
      (membersOf "transitions" Transition.toValue n.transitions ++ [])) := by
  simp [childValue, nestedValue]

theorem childValues_eq (ns : List (Nested StateMachine)) : childValues ns = ns.map childValue := by
  induction ns with
  | nil => rfl
  | cons n ns ih => rw [childValues, ih, List.map_cons, childValue]

theorem toValue_eq (m : StateMachine) : m.toValue = .object (("name", .string m.name) ::
    (memberOf "default_state" .string m.defaultState ++ ("states", .list State.toValue m.states) ::
      (membersOf "entry_transitions" Transition.toValue m.entryTransitions ++
        (membersOf "any_state_transitions" Transition.toValue m.anyStateTransitions ++
          (membersOf "state_machines" childValue m.children ++
            (membersOf "behaviours" Behaviour.toValue m.behaviours ++ [])))))) := by
  have hchildren : membersOf "state_machines" id (childValues m.children)
      = membersOf "state_machines" childValue m.children := by
    rw [childValues_eq]
    cases m.children <;> simp [membersOf, Value.list]
  rw [← hchildren]
  cases m
  simp [toValue]

theorem mem_childNumbers {n : Nested StateMachine} {ns : List (Nested StateMachine)} (hn : n ∈ ns)
    {x : Single} (hx : x ∈ n.machine.numbers ∨ x ∈ n.transitions.flatMap Transition.numbers) :
    x ∈ childNumbers ns := by
  induction ns with
  | nil => cases hn
  | cons k ns ih =>
    rw [childNumbers, List.mem_append, List.mem_append]
    rcases List.mem_cons.1 hn with rfl | hn
    · exact .inl hx
    · exact .inr (ih hn)

theorem numbers_eq (m : StateMachine) : m.numbers = m.states.flatMap State.numbers
    ++ m.entryTransitions.flatMap Transition.numbers
    ++ m.anyStateTransitions.flatMap Transition.numbers ++ childNumbers m.children
    ++ m.behaviours.flatMap Behaviour.numbers := by
  cases m
  rfl

/-- A nested machine is read back if its machine is. -/
theorem reads_child {machine : Reader StateMachine} {n : Nested StateMachine}
    (hm : Reads machine n.machine.toValue n.machine)
    (h : ∀ x ∈ n.transitions.flatMap Transition.numbers, x.Legible) :
    Reads (nestedRecord machine).read (childValue n) n := by
  rw [childValue_eq]
  exact Record.reads (by simp [nestedRecord, RecordField.required, RecordField.optional]) <|
    .required hm <| .membersOf (Transition.reads_list h) rfl (.nil _)

/-- A machine is read back if the machines right in it are. -/
theorem reads_of_children {machine : Reader StateMachine} {m : StateMachine}
    (hc : ∀ n ∈ m.children, Reads machine n.machine.toValue n.machine)
    (h : ∀ x ∈ m.numbers, x.Legible) : Reads (record machine).read m.toValue m := by
  rw [numbers_eq] at h
  simp only [List.forall_mem_append] at h
  obtain ⟨⟨⟨⟨hstates, hentry⟩, hany⟩, hnested⟩, hbehaviours⟩ := h
  have hchildren : Reads (.list (nestedRecord machine).read) (.list childValue m.children)
      m.children := .list _ fun n hn => reads_child (hc n hn) fun x hx =>
    hnested x (mem_childNumbers hn (.inr hx))
  rw [toValue_eq]
  cases m
  exact Record.reads (by simp [record, RecordField.optional]) <| .optional (.string _) <|
    .memberOf (fun s _ => ⟨.string s, nofun⟩) rfl <|
    .optional (.list _ fun s hs => State.reads fun x hx =>
      hstates x (List.mem_flatMap.2 ⟨s, hs, hx⟩)) <|
    .membersOf (Transition.reads_list hentry) rfl <|
    .membersOf (Transition.reads_list hany) rfl <|
    .membersOf hchildren rfl <| .membersOf (Behaviour.reads_list hbehaviours) rfl (.nil _)

/-- A machine nests more levels than the machines in it. -/
theorem depth_child {m : StateMachine} {n : Nested StateMachine} (hn : n ∈ m.children) :
    n.machine.toValue.depth < m.toValue.depth := by
  have hmachine : n.machine.toValue.depth < (childValue n).depth :=
    Value.depth_lt_object (m := ("state_machine", n.machine.toValue)) List.mem_cons_self
  have hitem : (childValue n).depth < (Value.list childValue m.children).depth :=
    Value.depth_lt_array (List.mem_map_of_mem hn)
  have hlist : ("state_machines", Value.list childValue m.children)
      ∈ membersOf "state_machines" childValue m.children := by
    cases hc : m.children with
    | nil => simp [hc] at hn
    | cons => exact List.mem_singleton_self _
  have hmember : (Value.list childValue m.children).depth < m.toValue.depth := by
    rw [toValue_eq]
    exact Value.depth_lt_object (m := ("state_machines", Value.list childValue m.children))
      (by simp [hlist])
  omega

/-- A machine is read back by a reader that allows for more levels of machines than its text
nests. -/
theorem reads_levels {levels : Nat} {m : StateMachine} (hd : m.toValue.depth < levels)
    (h : ∀ x ∈ m.numbers, x.Legible) : Reads (readLevels levels) m.toValue m := by
  induction levels generalizing m with
  | zero => omega
  | succ levels ih =>
    -- a machine inside has less depth, so one level of machines fewer is enough for it
    refine reads_of_children (fun n hn => ih ?_ fun x hx => h x ?_) h
    · have := depth_child hn
      omega
    · rw [numbers_eq]
      simp [mem_childNumbers hn (.inl hx)]

/-- A machine of any nesting is read back. -/
theorem reads {m : StateMachine} (h : ∀ x ∈ m.numbers, x.Legible) :
    Reads StateMachine.read m.toValue m where
  sound := (reads_levels (Nat.lt_succ_self _) h).sound
  read depth hd hm := (reads_levels (by omega) h).read depth hd hm

end StateMachine

/-! ## Controllers -/

theorem ControllerParameter.reads {p : ControllerParameter} (h : p.default.Legible) :
    Reads record.read p.toValue p :=
  Record.reads (by decide) <| .required (.string _) <| .required (.choice p.type.lookup_word) <|
    .optional h.reads (.nil _)

theorem ControllerLayer.reads {l : ControllerLayer} (h : ∀ x ∈ l.numbers, x.Legible)
    (hs : wordMin ≤ l.syncedLayer ∧ l.syncedLayer ≤ wordMax) :
    Reads record.read l.toValue l := by
  rw [numbers, List.forall_mem_cons] at h
  exact Record.reads (by decide) <| .required (.string _) <| .optional (.word hs) <|
    .optional h.1.reads <| .optional (StateMachine.reads h.2) (.nil _)

theorem Controller.reads {c : Controller} (h : ∀ x ∈ c.numbers, x.Legible)
    (hs : ∀ l ∈ c.layers, wordMin ≤ l.syncedLayer ∧ l.syncedLayer ≤ wordMax) :
    Reads record.read c.toValue c := by
  rw [numbers, List.forall_mem_append] at h
  exact Record.reads (by decide) <| .optional (.string _) <|
    .optional (.list _ fun p hp => ControllerParameter.reads (h.1 _ (List.mem_map_of_mem hp))) <|
    .optional (.list _ fun l hl => ControllerLayer.reads (fun x hx =>
      h.2 x (List.mem_flatMap.2 ⟨l, hl, hx⟩)) (hs l hl)) (.nil _)

/-! ## Avatars -/

theorem PlayableLayer.reads {l : PlayableLayer}
    (h : ∀ c ∈ l.controller, Reads Controller.record.read c.toValue c) :
    Reads record.read l.toValue l :=
  Record.reads (by decide) <| .required (.choice l.kind.lookup_word) <|
    .optional (.option _ fun c hc => ⟨h c hc, nofun⟩) (.nil _)

/-- Positions of an avatar's menu fit eight bytes, references between its layers four. -/
structure Avatar.Fits (a : Avatar) : Prop where
  root : ∀ m ∈ a.menu, m.root < Numeral.longTop
  links : ∀ m ∈ a.menu, ∀ p ∈ m.pages, ∀ c ∈ p.controls, ∀ i ∈ c.subMenu, i < Numeral.longTop
  layers : ∀ c ∈ a.controllers, ∀ l ∈ c.layers, wordMin ≤ l.syncedLayer ∧ l.syncedLayer ≤ wordMax

theorem Avatar.reads {a : Avatar} (h : ∀ x ∈ a.numbers, x.Legible) (hf : a.Fits) :
    Reads record.read a.toValue a := by
  simp only [numbers, List.forall_mem_append] at h
  obtain ⟨⟨hparameters, hmenu⟩, hcontrollers⟩ := h
  have hp : ∀ ps ∈ a.parameters, Reads (.list Parameter.record.read)
      (.list Parameter.toValue ps) ps := fun ps hps => .list _ fun p hp =>
    Parameter.reads (hparameters _ (List.mem_map_of_mem (by rwa [hps])))
  have hm : ∀ m ∈ a.menu, Reads Menu.record.read m.toValue m := fun m hm =>
    Menu.reads (fun p hp x hx => hmenu x (List.mem_flatMap.2 ⟨p, by rwa [hm], hx⟩))
      (hf.root m hm) (hf.links m hm)
  have hl : ∀ l ∈ a.layers, Reads PlayableLayer.record.read l.toValue l := fun l hl =>
    PlayableLayer.reads fun c hc => by
      have hmem : c ∈ a.controllers := List.mem_filterMap.2 ⟨l, hl, hc⟩
      exact Controller.reads (fun x hx => hcontrollers x (List.mem_flatMap.2 ⟨c, hmem, hx⟩))
        (hf.layers c hmem)
  exact Record.reads (by decide) <| .optional (.option _ fun ps hps => ⟨hp ps hps, nofun⟩) <|
    .optional (.option _ fun m hm' => ⟨hm m hm', nofun⟩) <| .optional (.list _ hl) (.nil _)

/-- **Rereading.** An avatar is read back from its description, whatever its strings and however its
machines nest, if each of its numbers is read back from its own text, its positions fit, and the
description nests no deeper than a text may. -/
theorem Avatar.parse_describe {a : Avatar} (h : ∀ x ∈ a.numbers, x.Legible) (hf : a.Fits)
    (hd : a.toValue.depth ≤ maxDepth) : Avatar.parse a.describe = .ok a :=
  (reads h hf).run_text hd .indented

/-- An avatar with a machine in a machine, actions of all kinds, and strings of all kinds. -/
def Avatar.puppet : Avatar where
  parameters := some [{ name := "Wave \"left\\right\"", type := .int },
    { name := "", type := .float, synced := false, default := -1 / 10 }]
  menu := some
    { pages := [{ name := "tab\tbell\x07", controls := [{ subMenu := some 3 },
      { parameter := some "Größe 😀", value := 127 }] }] }
  layers := [{ kind := .base },
    { kind := .fx
      controller := some
        { parameters := [{ name := "Wave", type := .trigger }]
          layers := [{ name := "idle", syncedLayer := 0 },
            { name := "wave"
              machine :=
                { states := [{ name := "rest", writeDefaults := false }]
                  children := [{ machine :=
                    { defaultState := some "up"
                      states := [
                        { name := "up"
                          transitions := [{ conditions := [⟨.greater, "Wave", 3⟩] }]
                          behaviours := [.other, .driver { actions := [.set "a" 1, .add "b" 2,
                            .random "c" 0 9 (1 / 3),
                            .copy "d" "e" true { destMax := 4 }] }] }]
                      behaviours := [.driver { localOnly := true }] } }] } }] } }]

theorem Avatar.parse_describe_puppet : (∀ x ∈ puppet.numbers, x.Legible) ∧ puppet.Fits
    ∧ puppet.toValue.depth ≤ maxDepth ∧ Avatar.parse puppet.describe = .ok puppet := by
  have hn : ∀ x ∈ puppet.numbers, x.Legible := by decide +kernel
  have hf : puppet.Fits := ⟨by decide +kernel, by decide +kernel, by decide +kernel⟩
  have hd : puppet.toValue.depth ≤ maxDepth := by decide +kernel
  exact ⟨hn, hf, hd, parse_describe hn hf hd⟩

end AvatarBits
