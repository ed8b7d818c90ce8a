import AvatarBits.CommandLine
import AvatarBits.Proofs.Codec.Numbers
import AvatarBits.Proofs.Compression.Totality

/-!
# Compressing what a compression wrote

What packing adds to an avatar has small whole numbers and nests a few levels
only, so the avatar that is written can be described exactly if the one that was
read can. Not every one can: a number beyond the range is read as infinite and
written as null, and a machine that ends with the last level that a text may
have is written with its empty list of states one level deeper. Wherever the
text that was written is taken, compressing it writes it again.

* `Options.deliver`: where the text of a compression goes.

Results:
* `Output.describable_applied`: an output leaves it open whether an avatar can be described.
* `Task.compress_again_iff`: when a second run writes what the first one did.
-/
namespace AvatarBits

open Json

/-! ## What an output adds -/

theorem default_of_mem_undeclared {declared : List String} {ws : List (String × SlotType)} :
    ∀ p ∈ undeclared declared ws, p.default = 0 := by
  induction ws generalizing declared with
  | nil => nofun
  | cons w ws ih =>
    unfold undeclared
    split
    · exact ih
    · exact List.forall_mem_cons.2 ⟨rfl, ih⟩

theorem default_of_mem_bitParameters {bits : List String} :
    ∀ p ∈ bitParameters bits, p.default = 0 :=
  List.forall_mem_map.2 fun _ _ => rfl

namespace Output

variable {config : Config} {a : Avatar} {o : Output}

/-- What packing adds has finite numbers. -/
structure Finite (o : Output) : Prop where
  declarations : ∀ p ∈ o.declarations, p.default.IsFinite
  layers : ∀ l ∈ o.layers, l.Finite

theorem finite_packed (h : (a.compress config).1 = .ok (.packed o)) : o.Finite := by
  obtain ⟨parameters, fx, codecs, -, -, -, rfl⟩ := Avatar.packed_from h
  constructor
  · intro p hp
    rw [default_of_mem_undeclared p hp]
    exact Single.isFinite_zero
  · intro l hl
    obtain ⟨c, -, hl⟩ := List.mem_flatMap.1 hl
    exact c.layers_finite _ _ l hl

/-- The list of parameters that is written has finite defaults if the one that was read has. -/
theorem finite_parameters {parameters : List Parameter}
    (h : (a.compress config).1 = .ok (.packed o)) (hp : a.parameters = some parameters) :
    (∀ p ∈ o.parameters, p.default.IsFinite) ↔ ∀ p ∈ parameters, p.default.IsFinite := by
  obtain ⟨ps, fx, codecs, hps, -, -, rfl⟩ := Avatar.packed_from h
  obtain rfl : ps = parameters := Option.some.inj (hps.symm.trans hp)
  have hbits : ∀ p ∈ codecs.flatMap fun c => bitParameters c.bits, p.default.IsFinite := by
    intro p hp
    obtain ⟨c, -, hp⟩ := List.mem_flatMap.1 hp
    rw [default_of_mem_bitParameters p hp]
    exact Single.isFinite_zero
  have hkept (p : Parameter) : (if (codecs.map Codec.parameter).contains p.name
      then { p with synced := false } else p : Parameter).default = p.default := by
    split <;> rfl
  simp only [pack, replaceSynced, List.forall_mem_append, List.forall_mem_map, hkept]
  exact and_iff_left hbits

theorem Finite.extend (h : o.Finite) {c : Controller} :
    (∀ x ∈ (o.extend c).numbers, x.IsFinite) ↔ ∀ x ∈ c.numbers, x.IsFinite := by
  have hlayers : ∀ k ∈ o.layers.filterMap Layer.toController?, ∀ x ∈ k.numbers, x.IsFinite := by
    intro k hk
    obtain ⟨l, hl, hk⟩ := List.mem_filterMap.1 hk
    exact (h.layers l hl).toController hk
  simp only [Controller.numbers, Output.extend, List.map_append, List.flatMap_append,
    List.forall_mem_append, List.forall_mem_map, List.forall_mem_flatMap]
  exact and_congr (and_iff_left h.declarations) (and_iff_left hlayers)

/-- An output leaves it open whether the numbers of an avatar are finite. -/
theorem finite_applied (h : (a.compress config).1 = .ok (.packed o)) :
    (∀ x ∈ (o.applied a).numbers, x.IsFinite) ↔ ∀ x ∈ a.numbers, x.IsFinite := by
  obtain ⟨parameters, fx, -, hp, hfx, -⟩ := Avatar.packed_from h
  obtain ⟨before, after, hold, hnew⟩ := controllers_onFirstFx hfx
  have hold : a.controllers = before ++ fx :: after := hold
  have hnew : (o.applied a).controllers = before ++ o.extend fx :: after := hnew o.extend
  have hparameters : (∀ p ∈ ((o.applied a).parameters.getD []), p.default.IsFinite)
      ↔ ∀ p ∈ (a.parameters.getD []), p.default.IsFinite := by
    rw [hp]
    exact finite_parameters h hp
  simp only [Avatar.numbers, hold, hnew, List.flatMap_append, List.flatMap_cons,
    List.forall_mem_append, List.forall_mem_map, hparameters, (finite_packed h).extend]
  rfl

/-- An output leaves it open how deep an avatar nests. -/
theorem depth_applied (h : (a.compress config).1 = .ok (.packed o)) :
    (o.applied a).toValue.depth ≤ maxDepth ↔ a.toValue.depth ≤ maxDepth := by
  obtain ⟨-, fx, -, -, hfx, -⟩ := Avatar.packed_from h
  have hadded : ∀ g ∈ o.layers, ∀ l, g.toController? = some l → l.toValue.depth ≤ 122 :=
    fun g _ l hl => Nat.le_trans (ControllerLayer.depth_le (Layer.children_toController hl))
      (by decide)
  rw [Avatar.depth_le_iff, Avatar.depth_le_iff]
  constructor
  · intro hall c hc l hl
    obtain ⟨d, hd, hl⟩ := (mem_layers_applied hfx).2 (.inl ⟨c, hc, hl⟩)
    exact hall d hd l hl
  · intro hall c hc l hl
    rcases (mem_layers_applied hfx).1 ⟨c, hc, hl⟩ with ⟨d, hd, hl⟩ | ⟨g, hg, hk⟩
    · exact hall d hd l hl
    · exact hadded g hg l hk

/-- **Descriptions.** An output leaves it open whether an avatar can be described. -/
theorem describable_applied (h : (a.compress config).1 = .ok (.packed o)) :
    (o.applied a).Describable ↔ a.Describable :=
  ⟨fun hd => ⟨(finite_applied h).1 hd.finite, (depth_applied h).1 hd.depth⟩,
    fun hd => ⟨(finite_applied h).2 hd.finite, (depth_applied h).2 hd.depth⟩⟩

/-- The positions of an avatar that an output was written into fit if they did. -/
theorem fits_applied (h : (a.compress config).1 = .ok (.packed o)) (hf : a.Fits) :
    (o.applied a).Fits := by
  obtain ⟨-, fx, -, -, hfx, -⟩ := Avatar.packed_from h
  refine ⟨hf.root, hf.links, fun c hc l hl => ?_⟩
  rcases (mem_layers_applied hfx).1 ⟨c, hc, hl⟩ with ⟨d, hd, hl⟩ | ⟨g, -, hk⟩
  · exact hf.layers d hd l hl
  · rw [Layer.syncedLayer_toController hk]
    decide

end Output

/-! ## The avatar that is written -/

namespace Avatar

variable {a : Avatar}

/-- The avatar that a compression writes: with its output if it has one, or as it was. -/
def rewritten (a : Avatar) (config : Config) : Avatar :=
  match (a.compress config).1 with
  | .ok (.packed o) => o.applied a
  | _ => a

theorem rewritten_cases (a : Avatar) (config : Config) :
    (∃ reason, (a.compress config).1 = .ok (.skipped reason) ∧ a.rewritten config = a)
      ∨ ∃ o, (a.compress config).1 = .ok (.packed o) ∧ a.rewritten config = o.applied a := by
  unfold rewritten
  rcases compress_cases config a with ⟨-, h⟩ | ⟨_, -, ⟨-, h⟩ | ⟨-, -, h⟩ | ⟨-, -, o, h⟩⟩
  · exact .inl ⟨_, h, by rw [h]⟩
  · exact .inl ⟨_, h, by rw [h]⟩
  · exact .inl ⟨_, h, by rw [h]⟩
  · exact .inr ⟨o, h, by rw [h]⟩

/-- An avatar that is skipped is written as it is with all options. -/
theorem rewritten_of_skipped {config : Config} {reason : SkipReason}
    (h : (a.compress config).1 = .ok (.skipped reason)) (again : Config) :
    a.rewritten again = a := by
  rcases rewritten_cases a again with ⟨-, -, hsame⟩ | ⟨o, ho, -⟩
  · exact hsame
  · obtain ⟨o', ho'⟩ := (packed_iff config a).2 ((packed_iff again a).1 ⟨o, ho⟩)
    cases h.symm.trans ho'

/-- **Rewriting again** changes nothing, with whatever options. -/
theorem rewritten_rewritten (a : Avatar) (config again : Config) :
    (a.rewritten config).rewritten again = a.rewritten config := by
  rcases rewritten_cases a config with ⟨reason, hr, he⟩ | ⟨o, ho, he⟩
  · rw [he, rewritten_of_skipped hr]
  · have hnone := (Output.analyze_applied ho).1
    rw [he, rewritten_of_skipped (compress_of_no_bounds rfl hnone config)]

theorem fits_rewritten (h : a.Fits) (config : Config) : (a.rewritten config).Fits := by
  rcases rewritten_cases a config with ⟨_, -, he⟩ | ⟨o, ho, he⟩
  · rwa [he]
  · exact he ▸ Output.fits_applied ho h

theorem describable_rewritten (a : Avatar) (config : Config) :
    (a.rewritten config).Describable ↔ a.Describable := by
  rcases rewritten_cases a config with ⟨_, -, he⟩ | ⟨o, ho, he⟩
  · rw [he]
  · rw [he, Output.describable_applied ho]

end Avatar

theorem compressText_eq {options : Options} (ho : options.emit ≠ some .layers) (a : Avatar) :
    compressText options a = .ok (a.rewritten options.config).describe := by
  have hemit : options.emit.getD .avatar = .avatar := by
    rcases he : options.emit with _ | _ | _
    · rfl
    · rfl
    · exact absurd he ho
  rcases a.rewritten_cases options.config with ⟨reason, hr, he⟩ | ⟨o, hr, he⟩
  · simp only [compressText, hemit, hr, he]
    rfl
  · obtain ⟨-, fx, -, -, hfx, -⟩ := Avatar.packed_from hr
    simp only [compressText, hemit, hr, he, Output.apply_ok hfx]
    rfl

/-! ## Runs -/

/-- Where the text of a compression goes. -/
def Options.deliver (o : Options) (text : String) : Response :=
  match o.output with
  | some path => .write path text
  | none => .print (text ++ "\n")

namespace Task

theorem respondTo_compress {options : Options} (ho : options.emit ≠ some .layers) {t : String}
    {a : Avatar} (h : Avatar.parse t = .ok a) :
    respondTo options t .compress = options.deliver (a.rewritten options.config).describe := by
  simp only [respondTo, h, respond, compressText_eq ho]
  rfl

/-- **Compressing again.** For every text that is taken, a compression writes the text of an avatar.
That text is taken, as it is in a file or with the line break of a terminal, exactly if all numbers
of the avatar that was read are finite and its description nests no deeper than a text may. Then
compressing it writes the same text again, with whatever options, and else it fails. -/
theorem compress_again_iff {text : String} {a : Avatar} (h : Avatar.parse text = .ok a)
    {first again : Options} (hfirst : first.emit ≠ some .layers)
    (hagain : again.emit ≠ some .layers) :
    ∃ d, respondTo first text .compress = first.deliver d ∧ ∀ t, t = d ∨ t = d ++ "\n" →
      ((∃ b, Avatar.parse t = .ok b) ↔ a.Describable)
        ∧ (a.Describable → respondTo again t .compress = again.deliver d)
        ∧ (¬ a.Describable → ∃ m, respondTo again t .compress = .fail m) := by
  refine ⟨_, respondTo_compress hfirst h, fun t ht => ?_⟩
  have hfits := Avatar.fits_rewritten (Avatar.fits_of_parse h) first.config
  have hparse {b : Avatar} := (Avatar.parse_iff (b := b) hfits (Avatar.scan_describe ht)).trans
    (and_congr_left' (Avatar.describable_rewritten a first.config))
  refine ⟨⟨fun ⟨b, hb⟩ => (hparse.1 hb).1, fun hd => ⟨_, hparse.2 ⟨hd, rfl⟩⟩⟩, fun hd => ?_,
    fun hd => ?_⟩
  · rw [respondTo_compress hagain (hparse.2 ⟨hd, rfl⟩), Avatar.rewritten_rewritten]
  · cases hp : Avatar.parse t with
    | error cause => exact ⟨_, by rw [respondTo, hp]⟩
    | ok b => exact absurd (hparse.1 hp).1 hd

/-! ## Two descriptions -/

/-- A description of an avatar with one integer to pack and a place for layers. -/
def posed : String :=
  "\x7b\"expression_parameters\":[\x7b\"name\":\"Pose\",\"value_type\":\"Int\","
    ++ "\"default_value\":3\x7d],"
    ++ "\"playable_layers\":[\x7b\"kind\":\"FX\",\"controller\":\x7b\x7d\x7d]\x7d"

/-- What is written of it with one layer for each tree is written again with one layer for both. -/
theorem compress_again_iff_posed :
    ∃ d, respondTo { layout := some .split } posed .compress = .print (d ++ "\n")
      ∧ (∃ b, Avatar.parse (d ++ "\n") = .ok b)
      ∧ respondTo { output := some "again.json" } (d ++ "\n") .compress
        = .write "again.json" d := by
  have hparse : Avatar.parse posed = .ok
      { parameters := some [⟨"Pose", .int, true, 3, false⟩], layers := [⟨.fx, some {}⟩] } := by
    decide +kernel
  have hsplit : ({ layout := some .split } : Options).emit ≠ some .layers := by decide
  have hfile : ({ output := some "again.json" } : Options).emit ≠ some .layers := by decide
  have hdescribable : Avatar.Describable
      { parameters := some [⟨"Pose", .int, true, 3, false⟩], layers := [⟨.fx, some {}⟩] } := by
    decide +kernel
  obtain ⟨d, hd, hagain⟩ := compress_again_iff hparse hsplit hfile
  obtain ⟨haccepted, hsame, -⟩ := hagain _ (.inr rfl)
  exact ⟨d, hd, haccepted.2 hdescribable, hsame hdescribable⟩

/-- A description with a number beyond the range, which is read as infinite. -/
def boundless : String :=
  "\x7b\"expression_parameters\":[\x7b\"name\":\"Scale\",\"value_type\":\"Float\","
    ++ "\"default_value\":1e39\x7d]\x7d"

/-- It is taken, and what is written of it is not. -/
theorem not_compress_again_boundless :
    ∃ a d, Avatar.parse boundless = .ok a
      ∧ respondTo {} boundless .compress = .print (d ++ "\n")
      ∧ ∀ t, t = d ∨ t = d ++ "\n" → ∀ b, Avatar.parse t ≠ .ok b := by
  have hparse : Avatar.parse boundless = .ok
      { parameters := some [⟨"Scale", .float, true, .infinite false, false⟩] } := by decide +kernel
  refine ⟨_, _, hparse, respondTo_compress (by decide) hparse, fun t ht b hb => ?_⟩
  have hfits := Avatar.fits_rewritten (Avatar.fits_of_parse hparse) (Options.config {})
  obtain ⟨hd, -⟩ := (Avatar.parse_iff hfits (Avatar.scan_describe ht)).1 hb
  rw [Avatar.describable_rewritten] at hd
  exact absurd hd (by decide +kernel)

end Task

end AvatarBits
