import AvatarBits.Proofs.Analysis.Exact
import AvatarBits.Proofs.Compression.Report
import AvatarBits.Proofs.Exchange.Verified

/-!
# Nothing that an avatar names gets lost

The analysis bounds a parameter by the values that the avatar names for it, the
output points each entry at the layers of its own codec, and the codec carries
every value up to its bound in any order. So the layers of a packed output carry
the avatar's own values, whichever of them are set and in whatever order.

Results:
* `Output.literal_le_bound`: the bound of an entry covers the avatar's own values.
* `Output.lossless`: these values arrive, one after another.
-/
namespace AvatarBits

namespace Output

/-- The values that an avatar names for a packed parameter are within its codec's bound. -/
theorem literal_le_bound {a : Avatar} {c : Codec}
    (hb : (c.parameter, (c.bound : Int)) ∈ a.analyze.bounds.entries) {x : Single}
    (hx : a.Literal c.parameter x) : x.truncate ≤ c.bound :=
  Avatar.literal_le hb hx

/-- **Losslessness.** For every avatar and all options, the layers that an entry of a packed output
points at carry the values that the avatar names for the parameter: sent one after another in any
order, each is the other instance's value right after it was sent. -/
theorem lossless {config : Config} {a : Avatar} {o : Output}
    (h : (a.compress config).1 = .ok (.packed o)) {e : Entry} (he : e ∈ o.report)
    (hn : e.name ≠ isLocalName) (values : List Int)
    (hv : ∀ v ∈ values, 0 ≤ v ∧ ∃ x : Single, a.Literal e.name x ∧ x.truncate = v) :
    ∃ encoder decoder, o.layers[e.encoder]? = some encoder ∧ o.layers[e.decoder]? = some decoder
      ∧ Channel.echo ⟨e.name, e.bits⟩ values
          (Channel.pair ⟨e.name, e.bits⟩ (.ofLayer encoder) (.ofLayer decoder))
        = .ok (values.map fun v => some (.int v)) := by
  obtain ⟨c, wd, hb, hof⟩ := o.entry_of h he
  refine ⟨_, _, hof.encoder_at, hof.decoder_at, ?_⟩
  rw [hof.name_eq] at hn hv
  rw [hof.name_eq, hof.bits_eq]
  obtain ⟨bE, bD, hl⟩ := c.linked_freshPair hn config.layout wd
  apply c.echo_eq hn values hl
  intro v hmem
  obtain ⟨h0, x, hx, rfl⟩ := hv v hmem
  exact ⟨h0, literal_le_bound hb hx⟩

/-- A synced integer that starts at two. -/
def pose : Parameter := ⟨"Pose", .int, true, 2, false⟩

/-- An avatar with one synced integer, which a driver in a nested machine of its own layer sets. -/
def driven : Avatar where
  parameters := some [pose]
  layers := [⟨.fx, some {
    layers := [{
      name := "Poses"
      machine := { children := [{ machine :=
        { behaviours := [.driver { actions := [.set "Pose" 5] }] } }] } }] }⟩]

theorem driven_default : driven.Literal "Pose" pose.default :=
  .default rfl (by decide +kernel)

theorem driven_set : driven.Literal "Pose" 5 :=
  .action (d := .set "Pose" 5) List.mem_cons_self List.mem_cons_self (by decide)
    (.nested List.mem_cons_self (.self _)) (Or.inl List.mem_cons_self) List.mem_cons_self rfl
    List.mem_cons_self

/-- The default and the driver's value arrive, in an order that returns to one of them. -/
theorem lossless_driven :
    ∃ o e encoder decoder, (driven.compress {}).1 = .ok (.packed o) ∧ e ∈ o.report
      ∧ o.layers[e.encoder]? = some encoder ∧ o.layers[e.decoder]? = some decoder
      ∧ Channel.echo ⟨"Pose", e.bits⟩ [5, 2, 5]
          (Channel.pair ⟨"Pose", e.bits⟩ (.ofLayer encoder) (.ofLayer decoder))
        = .ok [some (.int 5), some (.int 2), some (.int 5)] := by
  have hd : (of? (driven.compress {}).1).map (fun o => o.report.map Entry.name)
      = some ["Pose"] := by decide +kernel
  obtain ⟨o, ho, hnames⟩ := Option.map_eq_some_iff.1 hd
  obtain ⟨e, he, hn⟩ : ∃ e ∈ o.report, e.name = "Pose" :=
    List.mem_map.1 (hnames ▸ List.mem_cons_self)
  have h5 : (0 : Int) ≤ 5 ∧ ∃ x : Single, driven.Literal e.name x ∧ x.truncate = 5 :=
    ⟨by decide, 5, hn ▸ driven_set, by decide +kernel⟩
  have h2 : (0 : Int) ≤ 2 ∧ ∃ x : Single, driven.Literal e.name x ∧ x.truncate = 2 :=
    ⟨by decide, pose.default, hn ▸ driven_default, by decide +kernel⟩
  obtain ⟨encoder, decoder, hE, hD, hecho⟩ := lossless (eq_of_of? ho) he (hn ▸ by decide) [5, 2, 5]
    (by simp only [List.forall_mem_cons]; exact ⟨h5, h2, h5, fun v hv => nomatch hv⟩)
  exact ⟨o, e, encoder, decoder, eq_of_of? ho, he, hE, hD, hn ▸ hecho⟩

end Output

end AvatarBits
