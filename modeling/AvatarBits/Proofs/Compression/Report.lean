import AvatarBits.Compression.Basic

/-!
# Reports and the layers they point at

An output is packed from codecs, one for each bound that the analysis left, and
its report has an entry for each codec in their order. Layers of all codecs stand
in one list, and an entry's positions are those of its own.

Results:
* `Avatar.packed_from`: what a packed output was packed from.
* `codecs_eq`: its codecs are the bounds of the analysis.
* `getElem?_report`, `Codec.entry_of`: the entry at a position, its codec and its layers.
* `report_names`, `report_flatMap_bits`: names and bits of a report.
* `Output.report_names_eq`, `Output.pruned_eq`: what was packed and dropped is as the analysis says.
-/
namespace AvatarBits

/-! ## Codecs of an output -/

/-- Outputs that tell their inputs tell all of them, in order. -/
theorem map_of_mapM {ε α β : Type} {f : α → Except ε β} {g : β → α}
    (hg : ∀ {x y}, f x = .ok y → g y = x) {xs : List α} {ys : List β} (h : xs.mapM f = .ok ys) :
    ys.map g = xs := by
  induction xs generalizing ys with
  | nil =>
    cases h
    rfl
  | cons x xs ih =>
    rw [List.mapM_cons] at h
    cases hx : f x with
    | error e => rw [hx] at h; cases h
    | ok z =>
      rw [hx] at h
      cases hs : xs.mapM f with
      | error e => rw [hs] at h; cases h
      | ok zs =>
        rw [hs] at h
        cases h
        rw [List.map_cons, hg hx, ih hs]

theorem Codec.make_ok {name : String} {bound : Int} {c : Codec}
    (h : Codec.make name bound = .ok c) :
    c.parameter = name ∧ (c.bound : Int) = bound := by
  unfold Codec.make at h
  split at h
  · cases h
    exact ⟨rfl, Int.toNat_of_nonneg (And.left ‹_›)⟩
  · cases h

/-- Codecs are made of bounds, name by name. -/
theorem codecs_eq {bounds : List (String × Int)} {codecs : List Codec}
    (h : (bounds.mapM fun (name, bound) => Codec.make name bound) = .ok codecs) :
    codecs.map (fun c => (c.parameter, (c.bound : Int))) = bounds :=
  map_of_mapM (fun hc => Prod.ext (Codec.make_ok hc).1 (Codec.make_ok hc).2) h

theorem parameters_eq {bounds : List (String × Int)} {codecs : List Codec}
    (h : (bounds.mapM fun (name, bound) => Codec.make name bound) = .ok codecs) :
    codecs.map Codec.parameter = bounds.map Prod.fst := by
  rw [← codecs_eq h, List.map_map]
  rfl

theorem codecs_of_bounds {bounds : List (String × Int)} {codecs : List Codec}
    (h : (bounds.mapM fun (name, bound) => Codec.make name bound) = .ok codecs) {c : Codec}
    (hc : c ∈ codecs) : (c.parameter, (c.bound : Int)) ∈ bounds :=
  codecs_eq h ▸ List.mem_map_of_mem hc

/-- What a packed output was packed from. -/
theorem Avatar.packed_from {config : Config} {a : Avatar} {o : Output}
    (h : (a.compress config).1 = .ok (.packed o)) :
    ∃ parameters fx codecs, a.parameters = some parameters ∧ a.fx? = some fx
      ∧ (a.analyze.bounds.entries.mapM fun (name, bound) => Codec.make name bound) = .ok codecs
      ∧ o = pack parameters fx codecs config.layout
          (config.writeDefaults.resolve a.analyze.usage.all) a.analyze.pruned := by
  unfold Avatar.compress at h
  cases hp : a.parameters with
  | none => simp only [hp] at h; cases h
  | some parameters =>
    simp only [hp] at h
    split at h
    · cases h
    · split at h
      · cases h
      · rename_i fx hfx
        split at h
        · cases h
        · rename_i codecs hcodecs
          cases h
          exact ⟨parameters, fx, codecs, rfl, hfx, hcodecs, rfl⟩

/-! ## Outputs that were packed -/

namespace Output

/-- The output of a compression that packed something. -/
def of? : Except PackError Outcome → Option Output
  | .ok (.packed o) => some o
  | _ => none

theorem eq_of_of? {r : Except PackError Outcome} {o : Output} (h : of? r = some o) :
    r = .ok (.packed o) := by
  unfold of? at h
  split at h
  · simp [Option.some.inj h]
  · cases h

end Output

/-! ## Entries -/

/-- An entry tells of a codec and points at its layers. -/
structure Entry.Of (e : Entry) (c : Codec) (layout : LayerLayout) (wd : Bool)
    (layers : List Layer) : Prop where
  name_eq : e.name = c.parameter
  bound_eq : e.bound = c.bound
  bits_eq : e.bits = c.bits
  encoder_at : layers[e.encoder]? = some (c.encoder layout wd)
  decoder_at : layers[e.decoder]? = some (c.decoder layout wd)

/-- Number of layers of a codec. -/
def LayerLayout.size : LayerLayout → Nat
  | .fused => 1
  | .split => 2

/-- Positions of the layers that encode and decode, for the codec at a position of a list. -/
def LayerLayout.positions : LayerLayout → Nat → Nat × Nat
  | .fused, k => (k, k)
  | .split, k => (2 * k, 2 * k + 1)

theorem Codec.length_layers (c : Codec) (layout : LayerLayout) (wd : Bool) :
    (c.assemble layout wd).layers.length = layout.size := by
  cases layout <;> rfl

/-- The layers of the codec at a position stand behind those of the codecs before it. -/
theorem getElem?_layers {layout : LayerLayout} {wd : Bool} {codecs : List Codec} {k : Nat}
    {c : Codec} (h : codecs[k]? = some c) {j : Nat} (hj : j < layout.size) :
    (codecs.flatMap fun c => (c.assemble layout wd).layers)[k * layout.size + j]?
      = (c.assemble layout wd).layers[j]? := by
  induction codecs generalizing k with
  | nil => cases h
  | cons d codecs ih =>
    have hd := d.length_layers layout wd
    rw [List.flatMap_cons]
    cases k with
    | zero =>
      obtain rfl : d = c := Option.some.inj h
      rw [Nat.zero_mul, Nat.zero_add, List.getElem?_append_left (by omega)]
    | succ k =>
      have hk : (k + 1) * layout.size + j - layout.size = k * layout.size + j := by
        rw [Nat.succ_mul]
        omega
      rw [List.getElem?_append_right (by rw [Nat.succ_mul]; omega), hd, hk]
      exact ih h

/-- The entry at a position of a report is that of the codec there. -/
theorem getElem?_report (layout : LayerLayout) (wd : Bool) (base : Nat) (codecs : List Codec)
    (k : Nat) : (report layout wd base codecs)[k]?
      = codecs[k]?.map fun c => c.entry layout wd (base + k * layout.size) := by
  induction codecs generalizing base k with
  | nil => rfl
  | cons c codecs ih =>
    rw [report, c.length_layers]
    cases k with
    | zero => simp
    | succ k =>
      have hk : base + layout.size + k * layout.size = base + (k + 1) * layout.size := by
        rw [Nat.succ_mul]
        omega
      rw [List.getElem?_cons_succ, List.getElem?_cons_succ, ih, hk]

/-- The entry of a codec points at the codec's own layers. -/
theorem Codec.entry_of {layout : LayerLayout} (wd : Bool) {codecs : List Codec} {k : Nat}
    {c : Codec} (h : codecs[k]? = some c) :
    (c.entry layout wd (k * layout.size)).Of c layout wd
      (codecs.flatMap fun c => (c.assemble layout wd).layers) where
  name_eq := rfl
  bound_eq := rfl
  bits_eq := rfl
  encoder_at := by
    have hj : (c.assemble layout wd).encoder < layout.size := by
      cases layout <;> simp [assemble, LayerLayout.size]
    exact (getElem?_layers h hj).trans (c.assemble_encoder layout wd)
  decoder_at := by
    have hj : (c.assemble layout wd).decoder < layout.size := by
      cases layout <;> simp [assemble, LayerLayout.size]
    exact (getElem?_layers h hj).trans (c.assemble_decoder layout wd)

theorem Codec.entry_positions (c : Codec) (layout : LayerLayout) (wd : Bool) (k : Nat) :
    ((c.entry layout wd (k * layout.size)).encoder, (c.entry layout wd (k * layout.size)).decoder)
      = layout.positions k := by
  cases layout with
  | fused => simp [entry, assemble, LayerLayout.size, LayerLayout.positions]
  | split => simp [entry, assemble, LayerLayout.size, LayerLayout.positions, Nat.mul_comm]

/-- Each entry of a report tells of a codec and points at that codec's layers. -/
theorem mem_report {layout : LayerLayout} {wd : Bool} {codecs : List Codec} {e : Entry}
    (h : e ∈ report layout wd 0 codecs) :
    ∃ c ∈ codecs, e.Of c layout wd (codecs.flatMap fun c => (c.assemble layout wd).layers) := by
  obtain ⟨k, hk⟩ := List.mem_iff_getElem?.1 h
  rw [getElem?_report, Nat.zero_add] at hk
  obtain ⟨c, hc, rfl⟩ := Option.map_eq_some_iff.1 hk
  exact ⟨c, List.mem_of_getElem? hc, Codec.entry_of wd hc⟩

/-- The entries of a report are called like the parameters of its codecs. -/
theorem report_names (layout : LayerLayout) (wd : Bool) (base : Nat) (codecs : List Codec) :
    (report layout wd base codecs).map Entry.name = codecs.map Codec.parameter := by
  induction codecs generalizing base with
  | nil => rfl
  | cons c codecs ih =>
    rw [report, List.map_cons, List.map_cons, ih]
    rfl

theorem report_length (layout : LayerLayout) (wd : Bool) (base : Nat) (codecs : List Codec) :
    (report layout wd base codecs).length = codecs.length := by
  have h := congrArg List.length (report_names layout wd base codecs)
  simpa only [List.length_map] using h

/-- What is made of the bits of entries is made of those of their codecs. -/
theorem report_flatMap_bits {α : Type} (f : List String → List α) (layout : LayerLayout)
    (wd : Bool) (base : Nat) (codecs : List Codec) :
    (report layout wd base codecs).flatMap (fun e => f e.bits)
      = codecs.flatMap fun c => f c.bits := by
  induction codecs generalizing base with
  | nil => rfl
  | cons c codecs ih =>
    rw [report, List.flatMap_cons, List.flatMap_cons, ih]
    rfl

/-- The report of a packed output names the parameters that have a bound. -/
theorem Output.report_names_eq {config : Config} {a : Avatar} {o : Output}
    (h : (a.compress config).1 = .ok (.packed o)) :
    o.report.map Entry.name = a.analyze.bounds.entries.map Prod.fst := by
  obtain ⟨parameters, fx, codecs, -, -, hcodecs, rfl⟩ := Avatar.packed_from h
  rw [← parameters_eq hcodecs]
  exact report_names ..

/-- What a packed output says was dropped is what the analysis dropped. -/
theorem Output.pruned_eq {config : Config} {a : Avatar} {o : Output}
    (h : (a.compress config).1 = .ok (.packed o)) : o.pruned = a.analyze.pruned := by
  obtain ⟨parameters, fx, codecs, -, -, -, rfl⟩ := Avatar.packed_from h
  rfl

/-- Each entry of a packed output tells of a codec whose bound the analysis found, and points at
that codec's layers. -/
theorem Output.entry_of {config : Config} {a : Avatar} {o : Output}
    (h : (a.compress config).1 = .ok (.packed o)) {e : Entry} (he : e ∈ o.report) :
    ∃ (c : Codec) (wd : Bool), (c.parameter, (c.bound : Int)) ∈ a.analyze.bounds.entries
      ∧ e.Of c config.layout wd o.layers := by
  obtain ⟨parameters, fx, codecs, -, -, hm, rfl⟩ := Avatar.packed_from h
  obtain ⟨c, hc, hof⟩ := mem_report he
  exact ⟨c, _, codecs_of_bounds hm hc, hof⟩

end AvatarBits
