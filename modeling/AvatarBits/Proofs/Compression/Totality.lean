import AvatarBits.Proofs.Codec.Endpoints
import AvatarBits.Proofs.Compression.Repeated

/-!
# All or nothing

A compression always has an outcome. It leaves an avatar alone for one of three
reasons, looked for in this order: there is no list of parameters, every
candidate names a value that does not fit, or the first layer of kind `fx` is
missing or has no controller. Otherwise every bound that is left can be packed,
and every layer that comes of it turns into one of a controller. So an output can
be written into the avatar that it was made from, and then the list of parameters
and one controller are longer, some parameters are no longer synced, and nothing
else has changed.

* `Avatar.Exceeds`: a name has a value that does not fit.
* `Avatar.Unfit`: this is so for every candidate.
* `Avatar.LacksFx`: there is no place for layers.

Results:
* `Avatar.exists_codecs`: every bound of an analysis makes a codec.
* `Output.layers_convert`: every layer of an output turns into one of a controller.
* `Avatar.compress_all_or_nothing`: the outcome, and what applying it does.
-/
namespace AvatarBits

/-! ## Bounds that can be packed -/

/-- Outputs of steps that cannot fail. -/
theorem mapM_ok {ε α β : Type} {f : α → Except ε β} {xs : List α}
    (h : ∀ x ∈ xs, ∃ y, f x = .ok y) : ∃ ys, xs.mapM f = .ok ys := by
  induction xs with
  | nil => exact ⟨[], rfl⟩
  | cons x xs ih =>
    obtain ⟨y, hy⟩ := h x List.mem_cons_self
    obtain ⟨ys, hys⟩ := ih fun z hz => h z (List.mem_cons_of_mem _ hz)
    exact ⟨y :: ys, by rw [List.mapM_cons, hy, hys]; rfl⟩

namespace Avatar

theorem bound_le_maxBound {a : Avatar} {e : String × Int} (h : e ∈ a.analyze.bounds.entries) :
    e.2 ≤ maxBound := by
  rw [analyze_bounds] at h
  obtain ⟨n, hn, rfl⟩ := List.mem_map.1 h
  exact of_decide_eq_true (List.mem_filter.1 hn).2

/-- Every bound of an analysis makes a codec. -/
theorem exists_codecs (a : Avatar) : ∃ codecs,
    (a.analyze.bounds.entries.mapM fun (name, bound) => Codec.make name bound) = .ok codecs := by
  apply mapM_ok
  rintro ⟨name, bound⟩ h
  have hfit : 0 ≤ bound ∧ bound ≤ maxBound := ⟨bound_nonneg h, bound_le_maxBound h⟩
  exact ⟨_, dif_pos hfit⟩

/-! ## Candidates that do not fit -/

/-- A value that defaults, menu or machines name for a parameter is too great to be packed. -/
def Exceeds (a : Avatar) (name : String) : Prop :=
  ∃ x : Single, (a.Offered name x ∨ a.Handled name x) ∧ maxBound < x.truncate

theorem exceeds_iff {a : Avatar} {name : String} :
    a.Exceeds name ↔ maxBound < a.fullPeak name := by
  have hmem : ∀ x, x ∈ a.allValues name ↔ a.Offered name x ∨ a.Handled name x := by
    intro x
    rw [allValues, List.mem_append, mem_shownValues, mem_handled]
  constructor
  · rintro ⟨x, hx, hlt⟩
    exact Int.lt_of_lt_of_le hlt (le_peak ((hmem x).2 hx))
  · intro hlt
    unfold fullPeak at hlt
    rcases peak_eq (a.allValues name) with h0 | ⟨x, hx, he⟩
    · rw [h0] at hlt
      exact absurd hlt (by decide)
    · exact ⟨x, (hmem x).1 hx, he ▸ hlt⟩

/-- No bound is left exactly if no candidate fits. -/
theorem bounds_eq_nil_iff (a : Avatar) :
    a.analyze.bounds.entries = [] ↔ ∀ n ∈ a.candidateNames, a.Exceeds n := by
  rw [analyze_bounds]
  simp only [BoundTable.ofPeaks, List.map_eq_nil_iff, List.filter_eq_nil_iff, List.mem_filter,
    decide_eq_true_eq, exceeds_iff]
  constructor
  · intro h n hn
    have hle := a.shownPeak_le_fullPeak n
    have := h n
    by_cases hfit : a.fullPeak n ≤ maxBound
    · exact absurd hfit (h n ⟨hn, hle.trans hfit⟩)
    · omega
  · intro h n hn hfit
    have := h n hn.1
    omega

/-- No candidate among some parameters fits. -/
def Unfit (a : Avatar) (parameters : List Parameter) : Prop :=
  ∀ p ∈ parameters, p.isCandidate = true → a.Exceeds p.name

theorem bounds_eq_nil_iff_unfit {a : Avatar} {parameters : List Parameter}
    (h : a.parameters = some parameters) :
    a.analyze.bounds.entries = [] ↔ a.Unfit parameters := by
  rw [bounds_eq_nil_iff]
  constructor
  · exact fun hall p hp hc => hall p.name ((mem_candidateNames_iff h).2 ⟨p, hp, hc, rfl⟩)
  · intro hall n hn
    obtain ⟨p, hp, hc, rfl⟩ := (mem_candidateNames_iff h).1 hn
    exact hall p hp hc

/-! ## The place for layers -/

/-- The first layer of kind `fx` is missing or has no controller. -/
def LacksFx (a : Avatar) : Prop :=
  ∀ l, a.layers.find? (fun l => l.kind = .fx) = some l → l.controller = none

theorem fx?_eq_none_iff {a : Avatar} : a.fx? = none ↔ a.LacksFx := by
  unfold fx? firstFx? LacksFx
  rw [Option.bind_eq_none_iff]

end Avatar

/-! ## Outputs -/

namespace Output

variable {config : Config} {a : Avatar} {o : Output}

/-- Every layer of an output turns into one of a controller. -/
theorem layers_convert (h : (a.compress config).1 = .ok (.packed o)) :
    ∃ added, o.layers.map Layer.toController? = added.map some
      ∧ o.layers.filterMap Layer.toController? = added := by
  have hclosed : ∀ l ∈ o.layers, ∃ k, l.toController? = some k := by
    obtain ⟨parameters, fx, codecs, -, -, -, rfl⟩ := Avatar.packed_from h
    intro l hl
    obtain ⟨c, -, hl⟩ := List.mem_flatMap.1 hl
    exact Layer.toController?_of_closed (c.layers_closed _ _ l hl)
  generalize o.layers = ls at hclosed
  induction ls with
  | nil => exact ⟨[], rfl, rfl⟩
  | cons l ls ih =>
    obtain ⟨k, hk⟩ := hclosed l List.mem_cons_self
    obtain ⟨added, hmap, hadded⟩ := ih fun m hm => hclosed m (List.mem_cons_of_mem _ hm)
    exact ⟨k :: added, by simp [hk, hmap], by simp [hk, hadded]⟩

/-- The list of parameters that an output writes. -/
theorem parameters_packed {parameters : List Parameter}
    (h : (a.compress config).1 = .ok (.packed o)) (hp : a.parameters = some parameters) :
    o.parameters
      = parameters.map (fun p =>
          if p.name ∈ o.report.map Entry.name then { p with synced := false } else p)
        ++ o.report.flatMap fun e => e.bits.map fun b => ⟨b, .bool, true, 0, false⟩ := by
  obtain ⟨ps, fx, codecs, hps, -, -, rfl⟩ := Avatar.packed_from h
  obtain rfl : ps = parameters := Option.some.inj (hps.symm.trans hp)
  simp only [pack, report_names, report_flatMap_bits fun bits => bits.map fun b =>
    (⟨b, .bool, true, 0, false⟩ : Parameter)]
  unfold replaceSynced bitParameters
  simp only [List.contains_iff_mem]

/-- What applying an output to the avatar that it was made from does. -/
theorem apply_packed (h : (a.compress config).1 = .ok (.packed o)) :
    ∃ parameters before l fx after added, a.parameters = some parameters
      ∧ a.layers = before ++ l :: after ∧ (∀ k ∈ before, k.kind ≠ .fx) ∧ l.kind = .fx
      ∧ l.controller = some fx ∧ o.layers.map Layer.toController? = added.map some
      ∧ o.apply a = .ok {
        parameters := some (parameters.map (fun p =>
            if p.name ∈ o.report.map Entry.name then { p with synced := false } else p)
          ++ o.report.flatMap fun e => e.bits.map fun b => ⟨b, .bool, true, 0, false⟩)
        menu := a.menu
        layers := before ++ { l with controller := some {
            name := fx.name
            parameters := fx.parameters ++ o.declarations
            layers := fx.layers ++ added } } :: after } := by
  obtain ⟨parameters, fx, codecs, hp, hfx, -⟩ := Avatar.packed_from h
  obtain ⟨before, l, after, hlayers, hbefore, hl, hctl, hchange⟩ := onFirstFx_of_firstFx? hfx
  obtain ⟨added, hmap, hadded⟩ := layers_convert h
  refine ⟨parameters, before, l, fx, after, added, hp, hlayers, hbefore, hl, hctl, hmap, ?_⟩
  have happlied : o.applied a = { a with
      parameters := some o.parameters
      layers := before ++ { l with controller := some (o.extend fx) } :: after } := by
    unfold applied Avatar.onFx
    rw [hchange]
  rw [apply_ok hfx, happlied, parameters_packed h hp, extend, hadded]

theorem apply_of_lacksFx (o : Output) (h : a.LacksFx) : o.apply a = .error .missingFx := by
  unfold apply
  rw [Avatar.fx?_eq_none_iff.2 h]

end Output

/-! ## Outcomes -/

namespace Avatar

variable {config : Config} {a : Avatar} {parameters : List Parameter}

theorem compress_of_no_parameters (h : a.parameters = none) :
    (a.compress config).1 = .ok (.skipped .noParameters) := by
  unfold compress
  rw [h]

theorem compress_of_fitting (hp : a.parameters = some parameters)
    (h : a.analyze.bounds.entries ≠ []) (config : Config) :
    a.fx? = none ∧ (a.compress config).1 = .ok (.skipped .noFx)
      ∨ a.fx? ≠ none ∧ ∃ o, (a.compress config).1 = .ok (.packed o) := by
  obtain ⟨codecs, hcodecs⟩ := a.exists_codecs
  unfold compress
  simp only [hp, List.isEmpty_iff, h, if_false, hcodecs]
  cases hfx : a.fx? with
  | none => exact Or.inl ⟨rfl, rfl⟩
  | some fx => exact Or.inr ⟨Option.some_ne_none fx, _, rfl⟩

/-- Which outcome a compression has. -/
theorem compress_cases (config : Config) (a : Avatar) :
    (a.parameters = none ∧ (a.compress config).1 = .ok (.skipped .noParameters))
    ∨ ∃ parameters, a.parameters = some parameters
      ∧ ((a.Unfit parameters ∧ (a.compress config).1 = .ok (.skipped .noCandidates))
        ∨ (¬ a.Unfit parameters ∧ a.LacksFx ∧ (a.compress config).1 = .ok (.skipped .noFx))
        ∨ (¬ a.Unfit parameters ∧ ¬ a.LacksFx
          ∧ ∃ o, (a.compress config).1 = .ok (.packed o))) := by
  cases hp : a.parameters with
  | none => exact Or.inl ⟨rfl, compress_of_no_parameters hp⟩
  | some parameters =>
    refine Or.inr ⟨parameters, rfl, ?_⟩
    rw [← bounds_eq_nil_iff_unfit hp, ← fx?_eq_none_iff]
    by_cases h : a.analyze.bounds.entries = []
    · exact Or.inl ⟨h, compress_of_no_bounds hp h config⟩
    · rcases compress_of_fitting hp h config with ⟨hfx, hout⟩ | ⟨hfx, hout⟩
      · exact Or.inr (Or.inl ⟨h, hfx, hout⟩)
      · exact Or.inr (Or.inr ⟨h, hfx, hout⟩)

/-- Whether something is packed does not depend on the options. -/
theorem packed_iff (config : Config) (a : Avatar) :
    (∃ o, (a.compress config).1 = .ok (.packed o)) ↔
      ∃ parameters, a.parameters = some parameters ∧ ¬ a.Unfit parameters ∧ ¬ a.LacksFx := by
  rcases compress_cases config a with ⟨hp, h⟩ | ⟨ps, hp, ⟨hu, h⟩ | ⟨hu, hl, h⟩ | ⟨hu, hl, o, h⟩⟩
  · simp [hp, h]
  · simp [hp, h, hu]
  · simp [hp, h, hl]
  · simp [hp, h, hu, hl]

/-- **All or nothing.** A compression never fails. It skips an avatar without a list of parameters;
else one whose candidates all name a value that does not fit; else one without a place for layers;
and it packs every other one. An output can then be written into the avatar that it was made from:
every layer turns into one of a controller, exactly the parameters that the report names are no
longer synced, a synced boolean for each bit follows them, and the controller of the first layer of
kind `fx` gets the declarations and the layers behind its own. An avatar without a place for layers
takes no output at all. -/
theorem compress_all_or_nothing (config : Config) (a : Avatar) :
    (∃ outcome, (a.compress config).1 = .ok outcome)
    ∧ ((a.compress config).1 = .ok (.skipped .noParameters) ↔ a.parameters = none)
    ∧ ((a.compress config).1 = .ok (.skipped .noCandidates) ↔
      ∃ parameters, a.parameters = some parameters ∧ a.Unfit parameters)
    ∧ ((a.compress config).1 = .ok (.skipped .noFx) ↔
      ∃ parameters, a.parameters = some parameters ∧ ¬ a.Unfit parameters ∧ a.LacksFx)
    ∧ (∀ o, (a.compress config).1 = .ok (.packed o) →
      ∃ parameters before l fx after added, a.parameters = some parameters
        ∧ a.layers = before ++ l :: after ∧ (∀ k ∈ before, k.kind ≠ .fx) ∧ l.kind = .fx
        ∧ l.controller = some fx ∧ o.layers.map Layer.toController? = added.map some
        ∧ o.apply a = .ok {
          parameters := some (parameters.map (fun p =>
              if p.name ∈ o.report.map Entry.name then { p with synced := false } else p)
            ++ o.report.flatMap fun e => e.bits.map fun b => ⟨b, .bool, true, 0, false⟩)
          menu := a.menu
          layers := before ++ { l with controller := some {
              name := fx.name
              parameters := fx.parameters ++ o.declarations
              layers := fx.layers ++ added } } :: after })
    ∧ ∀ o : Output, a.LacksFx → o.apply a = .error .missingFx := by
  have happly : ∀ o, (a.compress config).1 = .ok (.packed o) → _ := fun o => Output.apply_packed
  have hlacks : ∀ o : Output, a.LacksFx → _ := fun o => Output.apply_of_lacksFx o
  rcases compress_cases config a with ⟨hp, h⟩ | ⟨ps, hp, ⟨hu, h⟩ | ⟨hu, hl, h⟩ | ⟨hu, hl, o, h⟩⟩
  · refine ⟨⟨_, h⟩, ?_, ?_, ?_, happly, hlacks⟩ <;> simp [hp, h]
  · refine ⟨⟨_, h⟩, ?_, ?_, ?_, happly, hlacks⟩ <;> simp [hp, h, hu]
  · refine ⟨⟨_, h⟩, ?_, ?_, ?_, happly, hlacks⟩ <;> simp [hp, h, hu, hl]
  · refine ⟨⟨_, h⟩, ?_, ?_, ?_, happly, hlacks⟩ <;> simp [hp, h, hu, hl]

end Avatar

end AvatarBits
