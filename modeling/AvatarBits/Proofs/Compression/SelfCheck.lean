import AvatarBits.Proofs.Compression.Report
import AvatarBits.Proofs.Exchange.Verified

/-!
# Outputs and their own check

Every codec of a packed output passes the check of the output, whatever the
avatar's parameters are called, except that of a parameter called like the
built-in one that tells the wearer's instance from the others.

Results:
* `Output.verifyEntry_eq`: the check of one entry.
* `Output.verify_packed`: the check of a whole output.
* `Output.verify_packed_isLocal`: an avatar whose output fails it.
-/
namespace AvatarBits

namespace Output

/-- How the check of a parameter called like the built-in one fails. -/
def builtInFailure : PackError := .roundTrip isLocalName 0 (some (-1))

/-- The check of an entry depends on its name only. -/
theorem verifyEntry_eq {config : Config} {a : Avatar} {o : Output}
    (h : (a.compress config).1 = .ok (.packed o)) {e : Entry} (he : e ∈ o.report) :
    o.verifyEntry e = if e.name = isLocalName then .error builtInFailure else .ok () := by
  obtain ⟨c, wd, -, hof⟩ := o.entry_of h he
  unfold verifyEntry
  simp only [hof.encoder_at, hof.decoder_at, hof.name_eq, hof.bound_eq, hof.bits_eq]
  by_cases hc : c.parameter = isLocalName
  · rw [c.verify_isLocal hc, if_pos hc]
    rfl
  · simp [c.verify_ok hc, hc]

theorem forM_eq {α : Type} {f : α → Except PackError Unit} {p : α → Bool} {failure : PackError}
    (es : List α) (hf : ∀ e ∈ es, f e = if p e then .error failure else .ok ()) :
    es.forM f = if es.any p then .error failure else .ok () := by
  induction es with
  | nil => rfl
  | cons e es ih =>
    have hes := ih fun e' he' => hf e' (List.mem_cons_of_mem _ he')
    show (do f e; es.forM f) = _
    rw [hf e List.mem_cons_self, List.any_cons]
    cases p e with
    | true => rfl
    | false => exact hes

/-- **The check of an output.** It succeeds, unless a parameter called like the built-in one was
packed; then it fails on that parameter's first value. -/
theorem verify_packed {config : Config} {a : Avatar} {o : Output}
    (h : (a.compress config).1 = .ok (.packed o)) :
    o.verify = if o.report.any (·.name = isLocalName) then .error builtInFailure else .ok () :=
  forM_eq o.report fun e he => by
    rw [verifyEntry_eq h he]
    by_cases hn : e.name = isLocalName
    · rw [if_pos hn, if_pos (decide_eq_true hn)]
    · rw [if_neg hn, if_neg fun hd => hn (of_decide_eq_true hd)]

/-! ## Two avatars -/

/-- An avatar with one synced integer and a place for layers. -/
def single (name : String) : Avatar where
  parameters := some [⟨name, .int, true, 0, false⟩]
  layers := [⟨.fx, some {}⟩]

/-- How a check failed. -/
def failure? : Except PackError Unit → Option PackError
  | .ok _ => none
  | .error e => some e

theorem eq_of_failure? {r : Except PackError Unit} {e : PackError} (h : failure? r = some e) :
    r = .error e := by
  cases r with
  | ok u => cases h
  | error e' => rw [Option.some.inj h]

/-- An output that passes. -/
theorem verify_packed_pose :
    ∃ o, ((single "Pose").compress {}).1 = .ok (.packed o) ∧ o.verify = .ok () := by
  have hd : (of? ((single "Pose").compress {}).1).map
      (fun o => o.report.any (·.name = isLocalName)) = some false := by decide +kernel
  obtain ⟨o, ho, hn⟩ := Option.map_eq_some_iff.1 hd
  refine ⟨o, eq_of_of? ho, ?_⟩
  rw [verify_packed (eq_of_of? ho), hn]
  rfl

/-- An output that does not: the only packed parameter is called like the built-in one. -/
theorem verify_packed_isLocal :
    ∃ o, ((single "IsLocal").compress {}).1 = .ok (.packed o)
      ∧ o.verify = .error (.roundTrip "IsLocal" 0 (some (-1))) := by
  have hd : (of? ((single "IsLocal").compress {}).1).bind (fun o => failure? o.verify)
      = some (.roundTrip "IsLocal" 0 (some (-1))) := by decide +kernel
  obtain ⟨o, ho, hv⟩ := Option.bind_eq_some_iff.1 hd
  exact ⟨o, eq_of_of? ho, eq_of_failure? hv⟩

end Output

end AvatarBits
