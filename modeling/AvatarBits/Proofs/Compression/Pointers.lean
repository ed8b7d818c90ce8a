import AvatarBits.Proofs.Analysis.Usage
import AvatarBits.Proofs.Codec.Grafting
import AvatarBits.Proofs.Compression.Repeated

/-!
# Report and layers in step

A report and a list of layers grow side by side, an entry and one or two layers
for each bound. An entry is written before its layers are, at the position that
they are about to have. As every codec has as many layers as any other of the
same layout, that position is a multiple of the entry's own, and a layer tells
whose it is.

* `Output.PointsAt`: whose a layer is.

Results:
* `existsUnique_owner`: each layer has one codec.
* `Codec.layers_writeDefaults`: all states of a codec's layers have one setting for defaults.
* `Output.report_in_step`: entries, layers and the setting of a packed output.
-/
namespace AvatarBits

/-! ## Positions -/

theorem length_codecs_layers (codecs : List Codec) (layout : LayerLayout) (wd : Bool) :
    (codecs.flatMap fun c => (c.assemble layout wd).layers).length
      = codecs.length * layout.size := by
  induction codecs with
  | nil => simp
  | cons c codecs ih =>
    rw [List.flatMap_cons, List.length_append, c.length_layers, ih, List.length_cons, Nat.succ_mul,
      Nat.add_comm]

/-- Each layer is that of one codec. -/
theorem existsUnique_owner (layout : LayerLayout) {n i : Nat} (hi : i < n * layout.size) :
    ∃! k, k < n ∧ ((layout.positions k).1 = i ∨ (layout.positions k).2 = i) := by
  cases layout with
  | fused =>
    simp only [LayerLayout.size, LayerLayout.positions] at hi ⊢
    exact ⟨i, ⟨by omega, .inl rfl⟩, by rintro k ⟨-, h⟩; omega⟩
  | split =>
    simp only [LayerLayout.size, LayerLayout.positions] at hi ⊢
    exact ⟨i / 2, ⟨by omega, by omega⟩, by rintro k ⟨-, h⟩; omega⟩

/-! ## Defaults of generated states -/

/-- All states of a codec's layers have the setting that the layers were made with. -/
theorem Codec.layers_writeDefaults (c : Codec) (layout : LayerLayout) (wd : Bool) :
    ∀ l ∈ (c.assemble layout wd).layers, ∀ s ∈ l.states, s.writeDefaults = wd := by
  -- a state that is added takes its setting from its layer
  have hboth : ∀ l ∈ (c.assemble layout wd).layers,
      l.writeDefaults = wd ∧ ∀ s ∈ l.states, s.writeDefaults = wd := by
    refine forall_layers (fun _ => ⟨rfl, forall_states_scaffold.2 ⟨rfl, rfl, rfl⟩⟩) ?_ layout
    rintro l role ⟨hl, hs⟩
    refine ⟨hl, ?_⟩
    rw [Layer.states_splice]
    refine List.forall_mem_append.2 ⟨hs, ?_⟩
    rw [List.forall_mem_map]
    exact fun n _ => hl
  exact fun l hl => (hboth l hl).2

theorem WriteDefaultsPolicy.resolve_eq_true_iff (p : WriteDefaultsPolicy) (all : Bool) :
    p.resolve all = true ↔ p = .on ∨ p = .auto ∧ all = true := by
  cases p <;> simp [resolve]

/-! ## Outputs -/

/-- The entry at a position of the report points at the layer at a position of the layers. -/
def Output.PointsAt (o : Output) (k i : Nat) : Prop :=
  ∃ e, o.report[k]? = some e ∧ (e.encoder = i ∨ e.decoder = i)

theorem pointsAt_pack_iff {parameters : List Parameter} {fx : Controller} {codecs : List Codec}
    {layout : LayerLayout} {wd : Bool} {pruned : List (String × Int)} {k i : Nat} :
    (pack parameters fx codecs layout wd pruned).PointsAt k i
      ↔ k < codecs.length ∧ ((layout.positions k).1 = i ∨ (layout.positions k).2 = i) := by
  have hpos (c : Codec) := Prod.mk.inj (c.entry_positions layout wd k)
  simp only [Output.PointsAt, pack, getElem?_report, Nat.zero_add, Option.map_eq_some_iff]
  constructor
  · rintro ⟨e, ⟨c, hc, rfl⟩, howner⟩
    rw [(hpos c).1, (hpos c).2] at howner
    exact ⟨(List.getElem?_eq_some_iff.1 hc).1, howner⟩
  · rintro ⟨hk, howner⟩
    refine ⟨_, ⟨_, List.getElem?_eq_getElem hk, rfl⟩, ?_⟩
    rw [(hpos _).1, (hpos _).2]
    exact howner

namespace Output

/-- **Report and layers in step.** The codecs of a packed output are those of the bounds that the
analysis left, in their order; the layers are those of the codecs, one codec after the other; and
the report has an entry for each codec, with its bound, its width and its bits, and with the
positions of its own two layers, which are one and the same where halves share a layer and
neighbours where they do not. Each layer is pointed at by one entry. All generated states write
defaults, or none does: they do exactly if the options say so, or leave it to the avatar, which has
states in machines that are looked at, and all of them write defaults. -/
theorem report_in_step {config : Config} {a : Avatar} {o : Output}
    (h : (a.compress config).1 = .ok (.packed o)) :
    ∃ codecs : List Codec,
      codecs.map (fun c => (c.parameter, (c.bound : Int))) = a.analyze.bounds.entries
      ∧ o.layers = codecs.flatMap (fun c => (c.assemble config.layout o.writeDefaults).layers)
      ∧ o.report.length = codecs.length
      ∧ (∀ k c, codecs[k]? = some c → ∃ e, o.report[k]? = some e
        ∧ e.Of c config.layout o.writeDefaults o.layers ∧ e.width = c.width
        ∧ (e.encoder, e.decoder) = config.layout.positions k)
      ∧ (∀ i < o.layers.length, ∃! k, o.PointsAt k i)
      ∧ (∀ l ∈ o.layers, ∀ s ∈ l.states, s.writeDefaults = o.writeDefaults)
      ∧ (o.writeDefaults = true ↔ config.writeDefaults = .on ∨ config.writeDefaults = .auto
        ∧ (∃ s, a.HasState s) ∧ ∀ s, a.HasState s → s.writeDefaults = true) := by
  have hbounds := Avatar.bounds_ne_nil h
  obtain ⟨parameters, fx, codecs, -, -, hcodecs, rfl⟩ := Avatar.packed_from h
  refine ⟨codecs, codecs_eq hcodecs, rfl, report_length .., ?_, ?_, ?_, ?_⟩
  · intro k c hc
    refine ⟨_, ?_, Codec.entry_of _ hc, rfl, c.entry_positions config.layout _ k⟩
    simp only [pack, getElem?_report, hc, Nat.zero_add, Option.map_some]
  · intro i hi
    simp only [pack, length_codecs_layers] at hi
    simp only [pointsAt_pack_iff]
    exact existsUnique_owner config.layout hi
  · intro l hl
    obtain ⟨c, -, hl⟩ := List.mem_flatMap.1 hl
    exact c.layers_writeDefaults config.layout _ l hl
  · simp only [pack]
    rw [WriteDefaultsPolicy.resolve_eq_true_iff, Avatar.usage_all_iff hbounds]

/-- An avatar with two synced integers, and a state in a nested machine that writes defaults. -/
def nested : Avatar where
  parameters := some [⟨"Pose", .int, true, 2, false⟩, ⟨"Hat", .int, true, 5, false⟩]
  layers := [⟨.fx, some { layers := [{ name := "Poses", machine :=
    { children := [{ machine := { states := [{ name := "Stand" }] } }] } }] }⟩]

/-- The second of its integers has the third and the fourth of the layers, and their states write
defaults as the avatar's do. -/
theorem report_in_step_nested :
    ∃ o e, (nested.compress { layout := .split }).1 = .ok (.packed o) ∧ o.report[1]? = some e
      ∧ e.name = "Hat" ∧ (e.encoder, e.decoder) = (2, 3) ∧ o.writeDefaults = true
      ∧ ∀ s, nested.HasState s → s.writeDefaults = true := by
  have hd : (of? (nested.compress { layout := .split }).1).map
      (fun o => (o.report.map Entry.name, o.writeDefaults)) = some (["Pose", "Hat"], true) := by
    decide +kernel
  obtain ⟨o, ho, hout⟩ := Option.map_eq_some_iff.1 hd
  obtain ⟨hnames, hwd⟩ := Prod.mk.inj hout
  obtain ⟨codecs, -, -, hlength, hentry, -, -, hiff⟩ := report_in_step (eq_of_of? ho)
  have hone : 1 < codecs.length := by
    rw [← hlength, ← List.length_map Entry.name, hnames]
    decide
  obtain ⟨e, he, -, -, hpos⟩ := hentry 1 _ (List.getElem?_eq_getElem hone)
  have hname : (o.report.map Entry.name)[1]? = some e.name := by rw [List.getElem?_map, he]; rfl
  rw [hnames] at hname
  rcases hiff.1 hwd with hon | ⟨-, -, hall⟩
  · cases hon
  · exact ⟨o, e, eq_of_of? ho, he, (Option.some.inj hname).symm, hpos, hwd, hall⟩

end Output

end AvatarBits
