import AvatarBits.Proofs.Codec.Footprint
import AvatarBits.Proofs.Compression.Report

/-!
# Compressing an avatar again

An output that was written into an avatar leaves nothing to compress. What was
packed is no candidate any more, and bits never were one. What was dropped still
is one, and is dropped again with the same bound: its default and the menu are as
they were, and no layer that was added names a number above one for it, even if
it is called like a bit of something packed.

* `Output.applied`: the avatar that applying an output gives.

Results:
* `Output.mem_layers_applied`, `Output.runs_applied_iff`: the layers and machines of that avatar.
* `Output.candidateNames_applied`, `Output.shownPeak_applied`, `Output.fullPeak_applied`: what an
  analysis of it finds.
* `Output.analyze_applied`, `Output.compress_apply`: it has nothing left to compress.
-/
namespace AvatarBits

/-! ## Applying an output -/

/-- The first layer of its kind and its controller, and what changing that controller does. -/
theorem onFirstFx_of_firstFx? {ls : List PlayableLayer} {fx : Controller}
    (h : firstFx? ls = some fx) :
    ∃ before l after, ls = before ++ l :: after ∧ (∀ k ∈ before, k.kind ≠ .fx) ∧ l.kind = .fx
      ∧ l.controller = some fx ∧ ∀ change : Controller → Controller,
        onFirstFx change ls = before ++ { l with controller := some (change fx) } :: after := by
  induction ls with
  | nil => cases h
  | cons l ls ih =>
    by_cases hl : l.kind = .fx
    · have hfx : l.controller = some fx := by simpa [firstFx?, hl] using h
      refine ⟨[], l, ls, rfl, List.forall_mem_nil _, hl, hfx, ?_⟩
      intro change
      simp [onFirstFx, hl, hfx]
    · have hrest : firstFx? ls = some fx := by simpa [firstFx?, hl] using h
      obtain ⟨before, k, after, rfl, hbefore, hk, hfx, hchange⟩ := ih hrest
      refine ⟨l :: before, k, after, rfl, List.forall_mem_cons.2 ⟨hl, hbefore⟩, hk, hfx, ?_⟩
      intro change
      simp [onFirstFx, hl, hchange change]

/-- Changing the controller of the first layer of its kind changes one controller. -/
theorem controllers_onFirstFx {ls : List PlayableLayer} {fx : Controller}
    (h : firstFx? ls = some fx) :
    ∃ before after, ls.filterMap PlayableLayer.controller = before ++ fx :: after
      ∧ ∀ change, (onFirstFx change ls).filterMap PlayableLayer.controller
        = before ++ change fx :: after := by
  obtain ⟨before, l, after, rfl, -, -, hl, hchange⟩ := onFirstFx_of_firstFx? h
  refine ⟨before.filterMap PlayableLayer.controller, after.filterMap PlayableLayer.controller, ?_,
    ?_⟩
  · simp [hl]
  · intro change
    simp [hchange change]

namespace Output

/-- The avatar that applying an output gives. -/
def applied (o : Output) (a : Avatar) : Avatar :=
  { a.onFx o.extend with parameters := some o.parameters }

section
variable {a : Avatar} {fx : Controller} (hfx : a.fx? = some fx)
include hfx

theorem apply_ok (o : Output) : o.apply a = .ok (o.applied a) := by
  unfold apply
  rw [hfx]
  rfl

/-- The layers of an avatar's controllers are those it had and those that were added. -/
theorem mem_layers_applied {o : Output} {l : ControllerLayer} :
    (∃ c ∈ (o.applied a).controllers, l ∈ c.layers)
      ↔ (∃ c ∈ a.controllers, l ∈ c.layers) ∨ ∃ g ∈ o.layers, g.toController? = some l := by
  obtain ⟨before, after, hold, hnew⟩ := controllers_onFirstFx hfx
  have hold : a.controllers = before ++ fx :: after := hold
  have hnew : (o.applied a).controllers = before ++ o.extend fx :: after := hnew o.extend
  have hfxl : l ∈ (o.extend fx).layers
      ↔ l ∈ fx.layers ∨ ∃ g ∈ o.layers, g.toController? = some l := by
    rw [← List.mem_filterMap]
    exact List.mem_append
  rw [hold, hnew]
  simp only [List.mem_append, List.mem_cons, or_and_right, exists_or, exists_eq_left, hfxl]
  grind

/-- The machines of an avatar are those it had and those of the layers that were added. -/
theorem runs_applied_iff {o : Output} {m : StateMachine} :
    (o.applied a).Runs m ↔ a.Runs m
      ∨ ∃ l ∈ o.layers, ∃ k, l.toController? = some k ∧ k.machine.Contains m := by
  constructor
  · rintro ⟨c, hc, l, hl, ha, hm⟩
    rcases (mem_layers_applied hfx).1 ⟨c, hc, hl⟩ with ⟨d, hd, hl⟩ | ⟨g, hg, hk⟩
    · exact Or.inl ⟨d, hd, l, hl, ha, hm⟩
    · exact Or.inr ⟨g, hg, l, hk, hm⟩
  · rintro (⟨c, hc, l, hl, ha, hm⟩ | ⟨g, hg, k, hk, hm⟩)
    · obtain ⟨d, hd, hl⟩ := (mem_layers_applied hfx).2 (Or.inl ⟨c, hc, hl⟩)
      exact ⟨d, hd, l, hl, ha, hm⟩
    · obtain ⟨d, hd, hl⟩ := (mem_layers_applied hfx).2 (Or.inr ⟨g, hg, hk⟩)
      exact ⟨d, hd, k, hl, Layer.isAlias_toController hk, hm⟩

/-- What was handled still is. -/
theorem handled_applied {o : Output} {name : String} {x : Single} (h : a.Handled name x) :
    (o.applied a).Handled name x := by
  cases h with
  | action hm hb hd hg => exact .action ((runs_applied_iff hfx).2 (Or.inl hm)) hb hd hg
  | condition hm ht hk hc => exact .condition ((runs_applied_iff hfx).2 (Or.inl hm)) ht hk hc

/-- What is handled now was handled, or belongs to a packed parameter, or is at most one. -/
theorem handled_of_applied {o : Output} {codecs : List Codec}
    (hl : ∀ l ∈ o.layers, ∃ c ∈ codecs, l.Confined c) {name : String} {x : Single}
    (h : (o.applied a).Handled name x) :
    a.Handled name x ∨ name ∈ codecs.map Codec.parameter ∨ x.truncate ≤ 1 := by
  cases h with
  | action hm hb hd hg =>
    rcases (runs_applied_iff hfx).1 hm with hm | ⟨l, hmem, k, hk, hm⟩
    · exact Or.inl (.action hm hb hd hg)
    · obtain ⟨c, hc, hconf⟩ := hl l hmem
      rcases ((hconf.contains hk hm).1 _ hb _ hd).gives hg with rfl | hx
      · exact Or.inr (Or.inl (List.mem_map_of_mem hc))
      · exact Or.inr (Or.inr hx)
  | condition hm ht hk hcmp =>
    rcases (runs_applied_iff hfx).1 hm with hm | ⟨l, hmem, k, hk', hm⟩
    · exact Or.inl (.condition hm ht hk hcmp)
    · obtain ⟨c, hc, hconf⟩ := hl l hmem
      obtain rfl := ((hconf.contains hk' hm).2 _ ht _ hk).compares hcmp
      exact Or.inr (Or.inl (List.mem_map_of_mem hc))

end

/-! ## What an analysis finds then -/

/-- Of the parameters written, candidates are the candidates that were not packed. -/
theorem filter_replaceSynced (existing : List Parameter) (packed : List String)
    {bits : List Parameter} (hbits : ∀ p ∈ bits, p.isCandidate = false) :
    (replaceSynced existing packed bits).filter Parameter.isCandidate
      = (existing.filter Parameter.isCandidate).filter fun p => !packed.contains p.name := by
  have hnone : bits.filter Parameter.isCandidate = [] := by
    rw [List.filter_eq_nil_iff]
    intro p hp
    rw [hbits p hp]
    exact Bool.false_ne_true
  unfold replaceSynced
  rw [List.filter_append, hnone, List.append_nil, List.filter_filter]
  simp only [List.contains_eq_mem, decide_eq_true_eq]
  induction existing with
  | nil => rfl
  | cons p ps ih =>
    by_cases hp : p.name ∈ packed
    · have hno : ({ p with synced := false } : Parameter).isCandidate = false := by
        simp [Parameter.isCandidate]
      rw [List.map_cons, if_pos hp, List.filter_cons_of_neg (by simp [hno]), ih,
        List.filter_cons_of_neg (by simp [hp])]
    · cases hc : p.isCandidate <;> simp [hc, hp, ih]

section
variable {o : Output} {a : Avatar} {parameters : List Parameter} {codecs : List Codec}
  (hp : a.parameters = some parameters)
  (ho : o.parameters = replaceSynced parameters (codecs.map Codec.parameter)
    (codecs.flatMap fun c => bitParameters c.bits))
include hp ho

/-- Candidates are those that were not packed. -/
theorem candidates_applied : (o.applied a).candidates
    = a.candidates.filter fun p => !(codecs.map Codec.parameter).contains p.name := by
  rw [Avatar.candidates_eq rfl, Avatar.candidates_eq hp, ho]
  apply filter_replaceSynced
  intro p hmem
  obtain ⟨c, -, hm⟩ := List.mem_flatMap.1 hmem
  obtain ⟨name, -, rfl⟩ := List.mem_map.1 hm
  rfl

/-- The names of candidates are those that were not packed, in the order that they had. -/
theorem candidateNames_applied : (o.applied a).candidateNames
    = a.candidateNames.filter fun n => !(codecs.map Codec.parameter).contains n := by
  unfold Avatar.candidateNames
  rw [candidates_applied hp ho, ← eraseDups_filter, List.filter_map]
  rfl

/-- Defaults and menu show for what was not packed what they did. -/
theorem shownPeak_applied {name : String} (hn : name ∉ codecs.map Codec.parameter) :
    (o.applied a).shownPeak name = a.shownPeak name := by
  have hfirst : firstDefault (a.candidates.filter
      fun p => !(codecs.map Codec.parameter).contains p.name) name
        = firstDefault a.candidates name := by
    unfold firstDefault
    rw [List.find?_filter]
    congr 3
    funext p
    by_cases h : p.name = name
    · simp [h, hn]
    · simp [h]
  unfold Avatar.shownPeak Avatar.shownValues
  rw [candidates_applied hp ho, hfirst]
  rfl

/-- Machines reach for what was not packed what they did: all else that they handle now is at most
one. -/
theorem fullPeak_applied {fx : Controller} (hfx : a.fx? = some fx)
    (hl : ∀ l ∈ o.layers, ∃ c ∈ codecs, l.Confined c) {name : String}
    (hn : name ∉ codecs.map Codec.parameter) (h1 : 1 ≤ a.fullPeak name) :
    (o.applied a).fullPeak name = a.fullPeak name := by
  have hnew := (o.applied a).isGreatest_fullPeak name
  obtain ⟨hmem, hub⟩ := a.isGreatest_fullPeak name
  rw [shownPeak_applied hp ho hn] at hnew
  refine hnew.unique ⟨?_, ?_⟩
  · exact hmem.imp_right fun ⟨x, hx, he⟩ => ⟨x, handled_applied hfx hx, he⟩
  · rintro v (rfl | ⟨x, hx, rfl⟩)
    · exact hub (Or.inl rfl)
    · rcases handled_of_applied hfx hl hx with hx | hx | hx
      · exact hub (Or.inr ⟨x, hx, rfl⟩)
      · exact absurd hx hn
      · exact hx.trans h1

end

end Output

/-! ## What is left -/

namespace Avatar

/-- The names that have a bound are those that fit, machines included. -/
theorem mem_bounds_iff {a : Avatar} {n : String} :
    n ∈ a.analyze.bounds.entries.map Prod.fst
      ↔ n ∈ a.candidateNames ∧ a.fullPeak n ≤ maxBound := by
  have hle := a.shownPeak_le_fullPeak n
  rw [analyze_bounds]
  simp only [BoundTable.ofPeaks, List.map_map, List.mem_map, List.mem_filter, decide_eq_true_eq,
    Function.comp, exists_eq_right]
  constructor
  · exact fun h => ⟨h.1.1, h.2⟩
  · exact fun h => ⟨⟨h.1, hle.trans h.2⟩, h.2⟩

/-- The other candidates are dropped. -/
theorem mem_pruned_iff {a : Avatar} {n : String} :
    n ∈ a.analyze.pruned.map Prod.fst ↔ n ∈ a.candidateNames ∧ maxBound < a.fullPeak n := by
  have hle := a.shownPeak_le_fullPeak n
  rw [analyze_pruned]
  simp only [List.map_append, List.map_map, List.mem_append, List.mem_map, List.mem_filter,
    decide_eq_true_eq, Function.comp, exists_eq_right]
  constructor
  · intro h
    rcases h with ⟨hn, hlt⟩ | ⟨⟨hn, -⟩, hlt⟩
    · exact ⟨hn, by omega⟩
    · exact ⟨hn, hlt⟩
  · intro h
    obtain ⟨hn, hlt⟩ := h
    by_cases hshown : a.shownPeak n ≤ maxBound
    · exact Or.inr ⟨⟨hn, hshown⟩, hlt⟩
    · exact Or.inl ⟨hn, by omega⟩

/-- The names that are packed are those that fit. -/
theorem mem_packed_iff {a : Avatar} {codecs : List Codec}
    (h : (a.analyze.bounds.entries.mapM fun (name, bound) => Codec.make name bound) = .ok codecs)
    {n : String} :
    n ∈ codecs.map Codec.parameter ↔ n ∈ a.candidateNames ∧ a.fullPeak n ≤ maxBound := by
  rw [parameters_eq h, mem_bounds_iff]

/-- Choosing among names of which only such were left that would not be chosen. -/
theorem map_filter_of_imp {β : Type} {names : List String} {d p q : String → Bool}
    {f g : String → β} (hd : ∀ n, q n = true → d n = true)
    (hp : ∀ n ∈ names.filter d, p n = q n) (hf : ∀ n ∈ names.filter d, f n = g n) :
    ((names.filter d).filter p).map f = (names.filter q).map g := by
  have hq : (names.filter d).filter q = names.filter q := by
    rw [List.filter_filter]
    apply List.filter_congr
    intro n _
    cases hn : q n with
    | true => rw [hd n hn, Bool.and_self]
    | false => rw [Bool.false_and]
  rw [List.filter_congr hp, List.map_congr_left fun n hn => hf n (List.mem_filter.1 hn).1, hq]

/-- An avatar whose candidates are those that do not fit in another, with their bounds there, has
nothing that fits, and the same candidates are dropped at the same bounds. -/
theorem analyze_of_dropped {a b : Avatar}
    (hnames : b.candidateNames = a.candidateNames.filter fun n => maxBound < a.fullPeak n)
    (hshown : ∀ n ∈ b.candidateNames, b.shownPeak n = a.shownPeak n)
    (hfull : ∀ n ∈ b.candidateNames, b.fullPeak n = a.fullPeak n) :
    b.analyze.bounds.entries = [] ∧ b.analyze.pruned = a.analyze.pruned := by
  have hdropped : ∀ n ∈ b.candidateNames, maxBound < b.fullPeak n := by
    intro n hn
    rw [hfull n hn]
    rw [hnames] at hn
    exact of_decide_eq_true (List.mem_filter.1 hn).2
  constructor
  · have hkept : (b.candidateNames.filter fun n => b.shownPeak n ≤ maxBound).filter
        (fun n => b.fullPeak n ≤ maxBound) = [] := by
      rw [List.filter_eq_nil_iff]
      intro n hn
      have hlt := hdropped n (List.mem_filter.1 hn).1
      rw [decide_eq_true_eq]
      omega
    rw [analyze_bounds, hkept]
    rfl
  · rw [analyze_pruned, analyze_pruned, List.filter_filter, List.filter_filter]
    rw [hnames] at hshown hfull ⊢
    congr 1
    · apply map_filter_of_imp
      · intro n hn
        have hle := a.shownPeak_le_fullPeak n
        simp only [decide_eq_true_eq] at hn ⊢
        omega
      · exact fun n hn => by rw [hshown n hn]
      · exact fun n hn => by rw [hshown n hn]
    · apply map_filter_of_imp
      · exact fun n hn => (Bool.and_eq_true _ _ ▸ hn).1
      · exact fun n hn => by rw [hshown n hn, hfull n hn]
      · exact fun n hn => by rw [hfull n hn]

theorem compress_of_no_bounds {a : Avatar} {parameters : List Parameter}
    (hp : a.parameters = some parameters) (h : a.analyze.bounds.entries = []) (config : Config) :
    (a.compress config).1 = .ok (.skipped .noCandidates) := by
  unfold compress
  simp only [hp, h, List.isEmpty_nil, if_true]

/-- What is packed comes of a bound. -/
theorem bounds_ne_nil {config : Config} {a : Avatar} {o : Output}
    (h : (a.compress config).1 = .ok (.packed o)) : a.analyze.bounds.entries ≠ [] := by
  obtain ⟨parameters, fx, codecs, hp, -⟩ := packed_from h
  intro hbounds
  rw [compress_of_no_bounds hp hbounds config] at h
  cases h

end Avatar

namespace Output

/-- Nothing fits in an avatar that an output was written into, and what is dropped is what was
dropped when the output was made. -/
theorem analyze_applied {config : Config} {a : Avatar} {o : Output}
    (h : (a.compress config).1 = .ok (.packed o)) :
    (o.applied a).analyze.bounds.entries = [] ∧ (o.applied a).analyze.pruned = o.pruned := by
  obtain ⟨parameters, fx, codecs, hp, hfx, hcodecs, ho⟩ := Avatar.packed_from h
  have hparameters : o.parameters = replaceSynced parameters (codecs.map Codec.parameter)
      (codecs.flatMap fun c => bitParameters c.bits) := by
    rw [ho]
    rfl
  have hlayers : ∀ l ∈ o.layers, ∃ c ∈ codecs, l.Confined c := by
    rw [ho]
    intro l hl
    obtain ⟨c, hc, hl⟩ := List.mem_flatMap.1 hl
    exact ⟨c, hc, c.confined _ _ l hl⟩
  have hpacked : ∀ n ∈ a.candidateNames,
      (n ∉ codecs.map Codec.parameter ↔ maxBound < a.fullPeak n) := by
    intro n hn
    rw [Avatar.mem_packed_iff hcodecs, not_and, Int.not_le]
    exact ⟨fun h => h hn, fun h _ => h⟩
  have hnames : (o.applied a).candidateNames
      = a.candidateNames.filter fun n => maxBound < a.fullPeak n := by
    rw [candidateNames_applied hp hparameters]
    apply List.filter_congr
    intro n hn
    rw [Bool.eq_iff_iff, decide_eq_true_eq, ← hpacked n hn]
    simp
  -- what is left was not packed, and its bound is far above what the added layers name
  have hleft : ∀ n ∈ (o.applied a).candidateNames,
      n ∉ codecs.map Codec.parameter ∧ 1 ≤ a.fullPeak n := by
    intro n hn
    rw [hnames] at hn
    obtain ⟨hn, hlt⟩ := List.mem_filter.1 hn
    have hlt := of_decide_eq_true hlt
    exact ⟨(hpacked n hn).2 hlt, by omega⟩
  obtain ⟨hb, hd⟩ := Avatar.analyze_of_dropped hnames
    (fun n hn => shownPeak_applied hp hparameters (hleft n hn).1)
    (fun n hn => fullPeak_applied hp hparameters hfx hlayers (hleft n hn).1 (hleft n hn).2)
  exact ⟨hb, hd.trans (pruned_eq h).symm⟩

/-- **Compressing again.** If an output of an avatar is written into it, with whatever options it was
made, then compressing the result with any others finds no candidate: no bound is left, and what is
dropped is what was dropped the first time, with the same bounds in the same order. -/
theorem compress_apply {config : Config} {a : Avatar} {o : Output}
    (h : (a.compress config).1 = .ok (.packed o)) (again : Config) :
    ∃ b, o.apply a = .ok b ∧ (b.compress again).1 = .ok (.skipped .noCandidates)
      ∧ b.analyze.bounds.entries = [] ∧ b.analyze.pruned = o.pruned := by
  obtain ⟨_, fx, _, -, hfx, -⟩ := Avatar.packed_from h
  obtain ⟨hb, hd⟩ := analyze_applied h
  exact ⟨_, apply_ok hfx o, Avatar.compress_of_no_bounds rfl hb again, hb, hd⟩

/-- An avatar with two synced integers, of which one fits and the other is called like its first
bit. -/
def crowded : Avatar where
  parameters := some [⟨"Pose", .int, true, 2, false⟩, ⟨"Pose.bit_0", .int, true, 200, false⟩]
  layers := [⟨.fx, some {}⟩]

/-- The layers that are added set the one that does not fit, and it is dropped as it was. -/
theorem compress_apply_crowded :
    ∃ o b, (crowded.compress {}).1 = .ok (.packed o) ∧ o.apply crowded = .ok b
      ∧ (b.compress { layout := .split }).1 = .ok (.skipped .noCandidates)
      ∧ b.analyze.pruned = [("Pose.bit_0", 200)] := by
  have hd : (of? (crowded.compress {}).1).map Output.pruned = some [("Pose.bit_0", 200)] := by
    decide +kernel
  obtain ⟨o, ho, hpruned⟩ := Option.map_eq_some_iff.1 hd
  obtain ⟨b, hb, hskip, -, hrest⟩ := compress_apply (eq_of_of? ho) { layout := .split }
  exact ⟨o, b, eq_of_of? ho, hb, hskip, hrest.trans hpruned⟩

end Output

end AvatarBits
