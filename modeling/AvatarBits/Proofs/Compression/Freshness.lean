import AvatarBits.Proofs.Analysis.Closed
import AvatarBits.Proofs.Codec.Names
import AvatarBits.Proofs.Compression.Report
import Mathlib.Data.List.Nodup

/-!
# Names of an output

The parameters that an output writes are called as those of the avatar were, in
order, and then as the bits of its entries. Bits are called after their parameter
and their number, so no two of all bits share a name. But nothing looks whether
the avatar has a parameter called so already: the names of an output are
distinct if, and only if, none of the avatar's is that of a bit.

Results:
* `Output.names_eq`: the names that are written.
* `Output.nodup_bits`: bits have names of their own.
* `Output.nodup_names_iff`: when all names are distinct.
* `Output.names_clash`: an avatar that has a bit of an earlier compression.
-/
namespace AvatarBits

/-! ## Names of bits -/

theorem Codec.nodup_bits (c : Codec) : c.bits.Nodup :=
  List.nodup_range.map fun _ _ h => bitName_inj.1 h

/-- The bits of codecs of different parameters have different names. -/
theorem nodup_codecs_bits {codecs : List Codec} (h : (codecs.map Codec.parameter).Nodup) :
    (codecs.flatMap Codec.bits).Nodup := by
  rw [List.nodup_flatMap]
  refine ⟨fun c _ => c.nodup_bits, ?_⟩
  refine (List.pairwise_map.1 h).imp ?_
  intro c d hne n hc hd
  obtain ⟨j, -, rfl⟩ := List.mem_map.1 hc
  obtain ⟨k, -, he⟩ := List.mem_map.1 hd
  exact hne (bitName_eq_iff.1 he).1.symm

theorem report_bits (layout : LayerLayout) (wd : Bool) (base : Nat) (codecs : List Codec) :
    (report layout wd base codecs).flatMap Entry.bits = codecs.flatMap Codec.bits :=
  report_flatMap_bits id layout wd base codecs

/-! ## Names of parameters -/

theorem names_replaceSynced (existing : List Parameter) (packed : List String)
    (bits : List Parameter) : (replaceSynced existing packed bits).map Parameter.name
      = existing.map Parameter.name ++ bits.map Parameter.name := by
  unfold replaceSynced
  rw [List.map_append, List.map_map]
  congr 1
  apply List.map_congr_left
  intro p _
  simp only [Function.comp]
  split <;> rfl

theorem names_bitParameters (codecs : List Codec) :
    (codecs.flatMap fun c => bitParameters c.bits).map Parameter.name
      = codecs.flatMap Codec.bits := by
  rw [List.map_flatMap]
  congr 1
  funext c
  unfold bitParameters
  rw [List.map_map]
  exact List.map_id _

/-- No name has two bounds. -/
theorem Avatar.nodup_bounds (a : Avatar) : (a.analyze.bounds.entries.map Prod.fst).Nodup := by
  have hnames : ((a.candidateNames.filter fun n => a.shownPeak n ≤ maxBound).filter
      fun n => a.fullPeak n ≤ maxBound).Nodup := ((nodup_eraseDups _).filter _).filter _
  rw [analyze_bounds]
  unfold BoundTable.ofPeaks
  rw [List.map_map]
  exact (List.map_id _).symm ▸ hnames

namespace Output

variable {config : Config} {a : Avatar} {o : Output} {parameters : List Parameter}

/-- The names that an output writes are those of the avatar and then those of the bits. -/
theorem names_eq (h : (a.compress config).1 = .ok (.packed o)) (hp : a.parameters = some parameters) :
    o.parameters.map Parameter.name
      = parameters.map Parameter.name ++ o.report.flatMap Entry.bits := by
  obtain ⟨ps, fx, codecs, hps, -, -, rfl⟩ := Avatar.packed_from h
  obtain rfl : ps = parameters := Option.some.inj (hps.symm.trans hp)
  simp only [pack, names_replaceSynced, names_bitParameters, report_bits]

/-- No two bits of an output share a name, be they of one parameter or of two. -/
theorem nodup_bits (h : (a.compress config).1 = .ok (.packed o)) :
    (o.report.flatMap Entry.bits).Nodup := by
  obtain ⟨ps, fx, codecs, -, -, hcodecs, rfl⟩ := Avatar.packed_from h
  simp only [pack, report_bits]
  exact nodup_codecs_bits (parameters_eq hcodecs ▸ a.nodup_bounds)

/-- **Fresh names.** Where an avatar's parameters have distinct names, an output writes these names
and then those of the bits; no two bits share one, and all names are distinct exactly if no parameter
of the avatar, packed or not, is called like a bit. -/
theorem nodup_names_iff (h : (a.compress config).1 = .ok (.packed o))
    (hp : a.parameters = some parameters) (hn : (parameters.map Parameter.name).Nodup) :
    o.parameters.map Parameter.name
        = parameters.map Parameter.name ++ o.report.flatMap Entry.bits
      ∧ (o.report.flatMap Entry.bits).Nodup
      ∧ ((o.parameters.map Parameter.name).Nodup ↔
        ∀ p ∈ parameters, p.name ∉ o.report.flatMap Entry.bits) := by
  refine ⟨names_eq h hp, nodup_bits h, ?_⟩
  rw [names_eq h hp, List.nodup_append']
  constructor
  · rintro ⟨-, -, hd⟩ p hmem
    exact hd (List.mem_map_of_mem hmem)
  · intro hfree
    refine ⟨hn, nodup_bits h, ?_⟩
    intro n hold
    obtain ⟨p, hmem, rfl⟩ := List.mem_map.1 hold
    exact hfree p hmem

/-- An avatar with a synced integer and a boolean beside it. -/
def beside (name : String) : Avatar where
  parameters := some [⟨"Pose", .int, true, 2, false⟩, ⟨name, .bool, true, 0, false⟩]
  layers := [⟨.fx, some {}⟩]

/-- Beside a name that is not that of a bit, all names are distinct. -/
theorem nodup_names_iff_hat :
    ∃ o, ((beside "Hat").compress {}).1 = .ok (.packed o)
      ∧ (o.parameters.map Parameter.name).Nodup := by
  have hd : (of? ((beside "Hat").compress {}).1).map (fun o => o.report.flatMap Entry.bits)
      = some ["Pose.bit_0", "Pose.bit_1"] := by decide +kernel
  obtain ⟨o, ho, hbits⟩ := Option.map_eq_some_iff.1 hd
  refine ⟨o, eq_of_of? ho, (nodup_names_iff (eq_of_of? ho) rfl (by decide)).2.2.2 ?_⟩
  rw [hbits]
  decide

/-- Beside a bit of an earlier compression they are not: that bit's name is written twice. -/
theorem names_clash :
    (((beside "Pose.bit_0").parameters.getD []).map Parameter.name).Nodup
      ∧ ∃ o, ((beside "Pose.bit_0").compress {}).1 = .ok (.packed o)
        ∧ o.parameters.map Parameter.name = ["Pose", "Pose.bit_0", "Pose.bit_0", "Pose.bit_1"]
        ∧ ¬ (o.parameters.map Parameter.name).Nodup := by
  have hd : (of? ((beside "Pose.bit_0").compress {}).1).map
      (fun o => o.parameters.map Parameter.name)
        = some ["Pose", "Pose.bit_0", "Pose.bit_0", "Pose.bit_1"] := by decide +kernel
  obtain ⟨o, ho, hnames⟩ := Option.map_eq_some_iff.1 hd
  refine ⟨by decide, o, eq_of_of? ho, hnames, ?_⟩
  rw [hnames]
  decide

end Output

end AvatarBits
