import AvatarBits.Proofs.Codec.Branches
import AvatarBits.Proofs.Compression.Repeated
import Mathlib.Data.List.Nodup

/-!
# Declarations of an output

A controller has to declare what its layers refer to. An output's declarations
come from its report, not from its layers: the bits of each entry and then the
entry's parameter, and last the built-in one, each unless a parameter of that name
has been declared. These are the names that the layers refer to, so none is
missing, and none is declared twice, although a packed parameter may be called
like a bit of another one.

* `Layer.RefersTo`: a parameter that a layer tests, writes or copies.

Results:
* `names_undeclared`: the names that still have to be declared.
* `Layer.Confined.mem_names`: what the layers of a codec refer to.
* `Output.declares_once`: an output declares what its layers refer to, and no name twice.
-/
namespace AvatarBits

/-! ## Names that a layer refers to -/

/-- The parameters of an action: the one that it writes, and the one that it copies. -/
def DriverAction.parameters : DriverAction → List String
  | .copy name source _ _ => [name, source]
  | .set name _ | .add name _ | .random name .. => [name]

/-- A parameter of a layer: one that a condition tests, or that an action writes or copies. -/
inductive Layer.RefersTo (l : Layer) : String → Prop
  | condition {t : LayerTransition} {k : Condition} :
    t ∈ l.transitions → k ∈ t.conditions → RefersTo l k.parameter
  | action {s : LayerState} {d : DriverAction} {n : String} :
    s ∈ l.states → d ∈ s.actions → n ∈ d.parameters → RefersTo l n

theorem Codec.Writes.mem_names {c : Codec} {d : DriverAction} (h : c.Writes d) {n : String}
    (hn : n ∈ d.parameters) : n ∈ c.names := by
  cases h with
  | bit set hk =>
    obtain rfl := List.mem_singleton.1 hn
    exact List.mem_cons_of_mem _ (List.mem_cons_of_mem _ (mem_bits.2 ⟨_, hk, rfl⟩))
  | value hv =>
    obtain rfl := List.mem_singleton.1 hn
    exact List.mem_cons_of_mem _ List.mem_cons_self

theorem Layer.Confined.mem_names {l : Layer} {c : Codec} (h : l.Confined c) {n : String}
    (hn : l.RefersTo n) : n ∈ c.names := by
  cases hn with
  | condition ht hk => exact (h.tests _ ht _ hk).mem_names
  | action hs hd hn => exact (h.writes _ hs _ hd).mem_names hn

/-! ## Names that are declared -/

/-- The names that still have to be declared are those that are wanted, in the order in which they
first are, without those that have been declared. -/
theorem names_undeclared (declared : List String) (ws : List (String × SlotType)) :
    (undeclared declared ws).map ControllerParameter.name
      = (ws.map Prod.fst).eraseDups.filter (· ∉ declared) := by
  induction ws generalizing declared with
  | nil => rfl
  | cons w ws ih =>
    obtain ⟨n, type⟩ := w
    rw [undeclared, List.map_cons, List.eraseDups_cons, eraseDups_filter]
    by_cases h : n ∈ declared
    · -- the name counts as declared here and there
      have hskip : ∀ m ∈ (ws.map Prod.fst).eraseDups,
          decide (m ∉ declared) = (decide (m ∉ declared) && !m == n) := by
        intro m _
        by_cases hm : m = n <;> simp [hm, h]
      rw [if_pos (List.contains_iff_mem.2 h), ih, List.filter_cons_of_neg (by simpa using h),
        List.filter_filter, List.filter_congr hskip]
    · have hnext : ∀ m ∈ (ws.map Prod.fst).eraseDups,
          decide (m ∉ n :: declared) = (decide (m ∉ declared) && !m == n) := by
        intro m _
        by_cases hm : m = n <;> simp [hm]
      rw [if_neg fun hc => h (List.contains_iff_mem.1 hc), List.map_cons, ih,
        List.filter_cons_of_pos (by simpa using h), List.filter_filter, List.filter_congr hnext]

theorem mem_names_undeclared {declared : List String} {ws : List (String × SlotType)} {n : String} :
    n ∈ (undeclared declared ws).map ControllerParameter.name
      ↔ n ∈ ws.map Prod.fst ∧ n ∉ declared := by
  rw [names_undeclared, List.mem_filter, List.mem_eraseDups, decide_eq_true_eq]

theorem nodup_names_undeclared (declared : List String) (ws : List (String × SlotType)) :
    ((undeclared declared ws).map ControllerParameter.name).Nodup := by
  rw [names_undeclared]
  exact (nodup_eraseDups _).filter _

/-- The names of packed codecs are wanted. -/
theorem mem_wanted {codecs : List Codec} {c : Codec} (hc : c ∈ codecs) {n : String}
    (hn : n ∈ c.names) :
    n ∈ (wanted (codecs.map fun c => (c.parameter, c.bits))).map Prod.fst := by
  have hnames : (wanted (codecs.map fun c => (c.parameter, c.bits))).map Prod.fst
      = codecs.flatMap (fun c => c.bits ++ [c.parameter]) ++ [isLocalName] := by
    unfold wanted
    rw [List.map_append, List.flatMap_map, List.map_flatMap]
    simp [Function.comp_def]
  rw [hnames]
  rcases List.mem_cons.1 hn with rfl | hn
  · exact List.mem_append_right _ List.mem_cons_self
  · refine List.mem_append_left _ (List.mem_flatMap.2 ⟨c, hc, ?_⟩)
    rcases List.mem_cons.1 hn with rfl | hn
    · exact List.mem_append_right _ List.mem_cons_self
    · exact List.mem_append_left _ hn

/-! ## Outputs -/

namespace Output

/-- The controller that receives an output, once the output has been applied. -/
theorem fx?_applied {a : Avatar} {fx : Controller} (hfx : a.fx? = some fx) (o : Output) :
    (o.applied a).fx? = some (o.extend fx) := by
  have h := a.fx?_onFx o.extend
  rw [hfx] at h
  exact h

/-- **Declarations.** Once an output has been applied to the avatar that it was made from, the
controller that received it declares every parameter that one of the layers refers to. What the
output added to the declarations has distinct names, none of which had been declared; so a
controller that declared each name once still does. -/
theorem declares_once {config : Config} {a : Avatar} {o : Output}
    (h : (a.compress config).1 = .ok (.packed o)) :
    ∃ fx b fx', a.fx? = some fx ∧ o.apply a = .ok b ∧ b.fx? = some fx'
      ∧ fx'.parameters = fx.parameters ++ o.declarations
      ∧ (∀ l ∈ o.layers, ∀ n, l.RefersTo n →
        n ∈ fx'.parameters.map ControllerParameter.name)
      ∧ (o.declarations.map ControllerParameter.name).Nodup
      ∧ (∀ d ∈ o.declarations, d.name ∉ fx.parameters.map ControllerParameter.name)
      ∧ ((fx.parameters.map ControllerParameter.name).Nodup →
        (fx'.parameters.map ControllerParameter.name).Nodup) := by
  obtain ⟨parameters, fx, codecs, -, hfx, -, ho⟩ := Avatar.packed_from h
  have hdeclarations : o.declarations = undeclared (fx.parameters.map ControllerParameter.name)
      (wanted (codecs.map fun c => (c.parameter, c.bits))) := by
    rw [ho]
    rfl
  have hnew : ∀ d ∈ o.declarations, d.name ∉ fx.parameters.map ControllerParameter.name := by
    intro d hd
    rw [hdeclarations] at hd
    exact (mem_names_undeclared.1 (List.mem_map_of_mem hd)).2
  have hnodup : (o.declarations.map ControllerParameter.name).Nodup := by
    rw [hdeclarations]
    exact nodup_names_undeclared _ _
  have hnames : (o.extend fx).parameters.map ControllerParameter.name
      = fx.parameters.map ControllerParameter.name
        ++ o.declarations.map ControllerParameter.name := List.map_append
  refine ⟨fx, o.applied a, o.extend fx, hfx, apply_ok hfx o, fx?_applied hfx o, rfl, ?_, hnodup,
    hnew, ?_⟩
  · intro l hl n hn
    rw [ho] at hl
    obtain ⟨c, hc, hl⟩ := List.mem_flatMap.1 hl
    have hwanted := mem_wanted hc ((c.confined _ _ l hl).mem_names hn)
    rw [hnames, List.mem_append, hdeclarations, mem_names_undeclared]
    by_cases hold : n ∈ fx.parameters.map ControllerParameter.name
    · exact .inl hold
    · exact .inr ⟨hwanted, hold⟩
  · intro hold
    rw [hnames]
    refine List.nodup_append'.2 ⟨hold, hnodup, ?_⟩
    intro n hn hd
    obtain ⟨d, hmem, rfl⟩ := List.mem_map.1 hd
    exact hnew d hmem hn

/-- An avatar whose second synced integer is called like a bit of the first, and whose controller
declares one name already. -/
def overlapping : Avatar where
  parameters := some [⟨"Pose", .int, true, 2, false⟩, ⟨"Pose.bit_0", .int, true, 1, false⟩]
  layers := [⟨.fx, some { parameters := [⟨"IsLocal", .bool, 0⟩] }⟩]

/-- What both need is declared once. -/
theorem declares_once_overlapping :
    ∃ (o : Output) (fx' : Controller), (overlapping.compress {}).1 = .ok (.packed o)
      ∧ fx'.parameters.map ControllerParameter.name
        = ["IsLocal", "Pose.bit_0", "Pose.bit_1", "Pose", "Pose.bit_0.bit_0"]
      ∧ (∀ l ∈ o.layers, ∀ n, l.RefersTo n → n ∈ fx'.parameters.map ControllerParameter.name)
      ∧ (fx'.parameters.map ControllerParameter.name).Nodup := by
  have hd : (of? (overlapping.compress {}).1).map
      (fun o => o.declarations.map ControllerParameter.name)
        = some ["Pose.bit_0", "Pose.bit_1", "Pose", "Pose.bit_0.bit_0"] := by decide +kernel
  obtain ⟨o, ho, hnames⟩ := Option.map_eq_some_iff.1 hd
  obtain ⟨fx, b, fx', hfx, -, -, hparameters, hall, -, -, hnodup⟩ := declares_once (eq_of_of? ho)
  obtain rfl := Option.some.inj hfx
  refine ⟨o, fx', eq_of_of? ho, ?_, hall, hnodup (by decide)⟩
  rw [hparameters, List.map_append, hnames]
  rfl

end Output

end AvatarBits
