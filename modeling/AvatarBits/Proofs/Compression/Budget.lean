import AvatarBits.Proofs.Compression.Freshness
import AvatarBits.Proofs.Compression.Repeated
import Mathlib.Algebra.GroupWithZero.Nat

/-!
# What packing saves on the network

A synced integer costs eight bits and its packed form seven at most. A report has
an entry for each name that is packed, no name twice, and every name is that of a
synced integer; so each entry frees eight bits of its own. Parameters that share a
packed name stop being synced as well, whatever their type, and only save more.

* `networkCost`: bits that a list of parameters takes on the network.

Results:
* `networkCost_replaceSynced`: what is no longer synced is saved, and bits are paid for.
* `le_networkCost_of_names`: each name of a synced integer stands for eight bits.
* `Output.networkCost_packed`: every entry of a report saves a bit at least.
-/
namespace AvatarBits

/-- Bits that parameters take on the network. -/
def networkCost (ps : List Parameter) : Nat := (ps.map Parameter.cost).sum

@[simp] theorem networkCost_nil : networkCost [] = 0 := rfl

@[simp] theorem networkCost_cons (p : Parameter) (ps : List Parameter) :
    networkCost (p :: ps) = p.cost + networkCost ps := rfl

@[simp] theorem networkCost_append (ps qs : List Parameter) :
    networkCost (ps ++ qs) = networkCost ps + networkCost qs := by
  simp [networkCost]

theorem Parameter.cost_unsynced (p : Parameter) : { p with synced := false }.cost = 0 := rfl

theorem Parameter.cost_of_isCandidate {p : Parameter} (h : p.isCandidate = true) : p.cost = 8 := by
  simp only [isCandidate, Bool.and_eq_true, decide_eq_true_eq] at h
  simp [cost, h.1, h.2]

theorem cost_le_networkCost {p : Parameter} {ps : List Parameter} (h : p ∈ ps) :
    p.cost ≤ networkCost ps := by
  induction ps with
  | nil => cases h
  | cons q ps ih =>
    rw [networkCost_cons]
    rcases List.mem_cons.1 h with rfl | h
    · exact Nat.le_add_right _ _
    · exact Nat.le_trans (ih h) (Nat.le_add_left _ _)

/-! ## Packed names -/

/-- Of two conditions that never hold at once, each saves what it picks. -/
theorem networkCost_filter_or {f g : Parameter → Bool} (hd : ∀ p, f p = true → g p = false)
    (ps : List Parameter) : networkCost (ps.filter fun p => f p || g p)
      = networkCost (ps.filter f) + networkCost (ps.filter g) := by
  induction ps with
  | nil => rfl
  | cons p ps ih =>
    cases hf : f p with
    | true => simp [hf, hd p hf, ih, Nat.add_assoc]
    | false => cases hg : g p <;> simp [hf, hg, ih, Nat.add_left_comm]

/-- Each name that a synced integer has stands for eight bits. -/
theorem le_networkCost_of_names {names : List String} (hn : names.Nodup) {ps : List Parameter}
    (h : ∀ n ∈ names, ∃ p ∈ ps, p.isCandidate = true ∧ p.name = n) :
    8 * names.length ≤ networkCost (ps.filter fun p => names.contains p.name) := by
  induction names with
  | nil => exact Nat.zero_le _
  | cons n names ih =>
    rw [List.nodup_cons] at hn
    rw [List.forall_mem_cons] at h
    obtain ⟨⟨p, hp, hcandidate, hname⟩, hrest⟩ := h
    have hsplit : networkCost (ps.filter fun p => (n :: names).contains p.name)
        = networkCost (ps.filter fun p => p.name == n)
          + networkCost (ps.filter fun p => names.contains p.name) := by
      rw [← networkCost_filter_or]
      · simp only [List.contains_cons]
      · intro q hq
        rw [beq_iff_eq.1 hq]
        simpa using hn.1
    have hmem : p ∈ ps.filter fun p => p.name == n := List.mem_filter.2 ⟨hp, beq_iff_eq.2 hname⟩
    have hcost := cost_le_networkCost hmem
    rw [Parameter.cost_of_isCandidate hcandidate] at hcost
    have := ih hn.2 hrest
    rw [hsplit, List.length_cons]
    omega

/-- Parameters that are no longer synced are saved, and what is appended is paid for. -/
theorem networkCost_replaceSynced (existing : List Parameter) (packed : List String)
    (bits : List Parameter) : networkCost (replaceSynced existing packed bits)
        + networkCost (existing.filter fun p => packed.contains p.name)
      = networkCost existing + networkCost bits := by
  unfold replaceSynced
  induction existing with
  | nil => simp
  | cons p ps ih =>
    simp only [networkCost_append, List.map_cons, networkCost_cons] at ih ⊢
    by_cases h : packed.contains p.name = true
    · rw [if_pos h, List.filter_cons, if_pos h, networkCost_cons, p.cost_unsynced]
      omega
    · rw [if_neg h, List.filter_cons, if_neg h]
      omega

/-! ## Bits -/

theorem networkCost_bitParameters (bits : List String) :
    networkCost (bitParameters bits) = bits.length := by
  induction bits with
  | nil => rfl
  | cons b bits ih =>
    show 1 + networkCost (bitParameters bits) = _
    rw [ih, List.length_cons, Nat.add_comm]

/-- Seven bits are enough for any codec. -/
theorem networkCost_bits_le (codecs : List Codec) :
    networkCost (codecs.flatMap fun c => bitParameters c.bits) ≤ 7 * codecs.length := by
  induction codecs with
  | nil => exact Nat.le_refl 0
  | cons c codecs ih =>
    have hc : c.bits.length ≤ 7 := by
      rw [Codec.bits, List.length_map, List.length_range]
      exact bitsFor_le c.bound
    rw [List.flatMap_cons, networkCost_append, networkCost_bitParameters, List.length_cons]
    omega

namespace Output

variable {config : Config} {a : Avatar} {o : Output}

/-- A compression that packs something has something to report. -/
theorem report_ne_nil (h : (a.compress config).1 = .ok (.packed o)) : o.report ≠ [] := by
  have hbounds := Avatar.bounds_ne_nil h
  obtain ⟨parameters, fx, codecs, -, -, hcodecs, rfl⟩ := Avatar.packed_from h
  intro hr
  have hnil : codecs = [] := by
    rw [← List.length_eq_zero_iff, ← report_length, ← List.length_eq_zero_iff.2 hr]
    rfl
  apply hbounds
  rw [← codecs_eq hcodecs, hnil, List.map_nil]

/-- **Savings.** What a compression packs takes fewer bits on the network than the avatar did, by
one bit at least for each entry of its report, and there is an entry. -/
theorem networkCost_packed (h : (a.compress config).1 = .ok (.packed o)) :
    ∃ parameters, a.parameters = some parameters ∧ o.report ≠ []
      ∧ networkCost o.parameters + o.report.length ≤ networkCost parameters := by
  have hreport := report_ne_nil h
  obtain ⟨parameters, fx, codecs, hp, -, hcodecs, rfl⟩ := Avatar.packed_from h
  refine ⟨parameters, hp, hreport, ?_⟩
  have hnames : (codecs.map Codec.parameter).Nodup := parameters_eq hcodecs ▸ a.nodup_bounds
  have hsynced : ∀ n ∈ codecs.map Codec.parameter,
      ∃ p ∈ parameters, p.isCandidate = true ∧ p.name = n := by
    intro n hn
    obtain ⟨hn, -⟩ := (Avatar.mem_packed_iff hcodecs).1 hn
    exact (Avatar.mem_candidateNames_iff hp).1 hn
  have hfreed := le_networkCost_of_names hnames hsynced
  have hpaid := networkCost_bits_le codecs
  have htotal := networkCost_replaceSynced parameters (codecs.map Codec.parameter)
    (codecs.flatMap fun c => bitParameters c.bits)
  rw [List.length_map] at hfreed
  simp only [pack, report_length]
  omega

/-- An avatar that declares one name three times, twice as an integer. -/
def triple : Avatar where
  parameters := some [⟨"Pose", .int, true, 100, false⟩, ⟨"Pose", .float, true, 0, false⟩,
    ⟨"Hat", .bool, true, 0, false⟩, ⟨"Pose", .int, true, 3, true⟩]
  layers := [⟨.fx, some {}⟩]

/-- Twenty-five bits before, and eight after: all three are packed into one codec of seven bits. -/
theorem networkCost_packed_triple :
    ∃ o, (triple.compress {}).1 = .ok (.packed o) ∧ networkCost o.parameters = 8
      ∧ networkCost o.parameters + o.report.length ≤ 25 := by
  have hd : (of? (triple.compress {}).1).map (fun o => networkCost o.parameters) = some 8 := by
    decide +kernel
  obtain ⟨o, ho, hcost⟩ := Option.map_eq_some_iff.1 hd
  obtain ⟨parameters, hp, -, hle⟩ := networkCost_packed (eq_of_of? ho)
  obtain rfl := Option.some.inj hp
  exact ⟨o, eq_of_of? ho, hcost, hle⟩

end Output

end AvatarBits
