import AvatarBits.Proofs.Compression.Totality

/-!
# Parameters that are left alone

An integer is packed because it is synced, but what is packed goes by its name
from then on. So when the list of parameters is written anew, every parameter of
that name stops being synced, also one that was declared again with another type.
All others keep their place and all that they say: those that were not synced to
begin with, and those whose name was dropped because a value did not fit.

* `Avatar.Packs`: a name is that of a synced integer whose values all fit.

Results:
* `Output.mem_report_names_iff`, `Output.mem_pruned_names_iff`: which names are packed and which
  are dropped.
* `Output.kept_iff`: which parameters are left alone, and what becomes of the others.
-/
namespace AvatarBits

/-- Some synced integer of a list has a name, and all values that the avatar names for it fit. -/
def Avatar.Packs (a : Avatar) (parameters : List Parameter) (name : String) : Prop :=
  (∃ p ∈ parameters, p.isCandidate = true ∧ p.name = name) ∧ ¬ a.Exceeds name

namespace Output

variable {config : Config} {a : Avatar} {o : Output} {parameters : List Parameter}

section
variable (h : (a.compress config).1 = .ok (.packed o)) (hp : a.parameters = some parameters)
include h hp

/-- The report has an entry for each name that is packed. -/
theorem mem_report_names_iff {name : String} :
    name ∈ o.report.map Entry.name ↔ a.Packs parameters name := by
  rw [report_names_eq h, Avatar.mem_bounds_iff, Avatar.Packs, Avatar.mem_candidateNames_iff hp,
    Avatar.exceeds_iff, Int.not_lt]

/-- The names of the other candidates are dropped. -/
theorem mem_pruned_names_iff {name : String} :
    name ∈ o.pruned.map Prod.fst
      ↔ (∃ p ∈ parameters, p.isCandidate = true ∧ p.name = name) ∧ a.Exceeds name := by
  rw [pruned_eq h, Avatar.mem_pruned_iff, Avatar.mem_candidateNames_iff hp, Avatar.exceeds_iff]

/-- What stands where a parameter stood. -/
theorem getElem?_parameters {k : Nat} {p : Parameter} (hk : parameters[k]? = some p) :
    o.parameters[k]?
      = some (if p.name ∈ o.report.map Entry.name then { p with synced := false } else p) := by
  have hlt : k < parameters.length := (List.getElem?_eq_some_iff.1 hk).1
  rw [parameters_packed h hp, List.getElem?_append_left (by rwa [List.length_map]),
    List.getElem?_map, hk]
  rfl

theorem getElem?_of_packs {k : Nat} {p : Parameter} (hk : parameters[k]? = some p)
    (hpack : a.Packs parameters p.name) :
    o.parameters[k]? = some { p with synced := false } := by
  rw [getElem?_parameters h hp hk, if_pos ((mem_report_names_iff h hp).2 hpack)]

theorem getElem?_of_not_packs {k : Nat} {p : Parameter} (hk : parameters[k]? = some p)
    (hpack : ¬ a.Packs parameters p.name) : o.parameters[k]? = some p := by
  rw [getElem?_parameters h hp hk, if_neg fun hn => hpack ((mem_report_names_iff h hp).1 hn)]

end

/-- **What is left alone.** What a compression packs has for each parameter of the avatar one at the
same position. It is the same parameter exactly if that was not synced or no synced integer of its
name is packed, whatever its own type; and else it is no longer synced and says the same otherwise.
So a parameter whose name is dropped is left alone, and a synced integer whose name is not dropped
is not. -/
theorem kept_iff (h : (a.compress config).1 = .ok (.packed o)) :
    ∃ parameters, a.parameters = some parameters
      ∧ ∀ (k : Nat) (p : Parameter), parameters[k]? = some p →
      (o.parameters[k]? = some p ↔ p.synced = false ∨ ¬ a.Packs parameters p.name)
      ∧ (o.parameters[k]? ≠ some p → o.parameters[k]? = some { p with synced := false })
      ∧ (p.name ∈ o.pruned.map Prod.fst → o.parameters[k]? = some p)
      ∧ (p.isCandidate = true → p.name ∉ o.pruned.map Prod.fst →
        o.parameters[k]? = some { p with synced := false }) := by
  obtain ⟨parameters, -, -, hp, -⟩ := Avatar.packed_from h
  refine ⟨parameters, hp, ?_⟩
  intro k p hk
  have hpruned : p.name ∈ o.pruned.map Prod.fst ↔ _ := mem_pruned_names_iff h hp
  by_cases hpack : a.Packs parameters p.name
  · have hnew := getElem?_of_packs h hp hk hpack
    have hsame : o.parameters[k]? = some p ↔ p.synced = false := by
      rw [hnew, Option.some.injEq]
      exact ⟨fun he => he ▸ rfl, fun hs => by rw [← hs]⟩
    refine ⟨?_, fun _ => hnew, fun hdropped => absurd (hpruned.1 hdropped).2 hpack.2,
      fun _ _ => hnew⟩
    rw [hsame, or_iff_left (not_not_intro hpack)]
  · have hold := getElem?_of_not_packs h hp hk hpack
    refine ⟨iff_of_true hold (Or.inr hpack), fun hne => absurd hold hne, fun _ => hold, ?_⟩
    intro hc hkept
    have hp : ∃ q ∈ parameters, q.isCandidate = true ∧ q.name = p.name :=
      ⟨p, List.mem_of_getElem? hk, hc, rfl⟩
    exact absurd ⟨hp, fun he => hkept (hpruned.2 ⟨hp, he⟩)⟩ hpack

/-- An avatar that declares one name as an integer, as a number and as an integer that is not
synced, and another name whose default does not fit. -/
def namesakes : Avatar where
  parameters := some [⟨"Pose", .int, true, 2, false⟩, ⟨"Pose", .float, true, 1, false⟩,
    ⟨"Pose", .int, false, 9, true⟩, ⟨"Hue", .int, true, 200, false⟩]
  layers := [⟨.fx, some {}⟩]

/-- The integer that was not synced and the one that is dropped are left alone. -/
theorem kept_iff_namesakes :
    ∃ o, (namesakes.compress {}).1 = .ok (.packed o)
      ∧ o.parameters[2]? = some ⟨"Pose", .int, false, 9, true⟩
      ∧ o.parameters[3]? = some ⟨"Hue", .int, true, 200, false⟩ := by
  have hd : (of? (namesakes.compress {}).1).map Output.pruned = some [("Hue", 200)] := by
    decide +kernel
  obtain ⟨o, ho, hpruned⟩ := Option.map_eq_some_iff.1 hd
  obtain ⟨parameters, hp, hall⟩ := kept_iff (eq_of_of? ho)
  obtain rfl := Option.some.inj hp
  refine ⟨o, eq_of_of? ho, (hall 2 _ rfl).1.2 (Or.inl rfl), (hall 3 _ rfl).2.2.1 ?_⟩
  rw [hpruned]
  exact List.mem_cons_self

/-- The number of the same name as a packed integer was synced and is no longer, although it is no
candidate. -/
theorem namesake_unsynced :
    ∃ p o, (namesakes.compress {}).1 = .ok (.packed o)
      ∧ (namesakes.parameters.bind fun ps => ps[1]?) = some p ∧ p.isCandidate = false
      ∧ p.synced = true ∧ o.parameters[1]? = some { p with synced := false } := by
  have hd : (of? (namesakes.compress {}).1).map (fun o => o.parameters[1]?)
      = some (some ⟨"Pose", .float, false, 1, false⟩) := by decide +kernel
  obtain ⟨o, ho, hmoved⟩ := Option.map_eq_some_iff.1 hd
  exact ⟨⟨"Pose", .float, true, 1, false⟩, o, eq_of_of? ho, rfl, rfl, rfl, hmoved⟩

end Output

end AvatarBits
