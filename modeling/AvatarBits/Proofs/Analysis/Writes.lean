import AvatarBits.Proofs.Analysis.Exact
import AvatarBits.Proofs.Number.Conversion
import AvatarBits.Simulation.Machine

/-!
# Bounds under the avatar's own writes

A store is within the bounds of an analysis when each tracked parameter is a
whole number up to its bound. What an avatar sets or draws keeps a store there,
because the analysis has seen the values. A copy brings a number from elsewhere,
and the analysis looks at the ends of the range that it converts to, if it
converts: a number from within the source range is brought within these ends,
but a number from beyond it, or one that is not converted, can be anything.

* `Store.Within`: tracked parameters are up to their bounds.
* `DriverAction.Overruns`: a copy that brings more than the bound of its target.

Results:
* `Store.within_write`: what a write makes of a store.
* `Avatar.within_enter_iff`: entering a state keeps the bounds, except by a copy that overruns one.
* `Avatar.copied_beyond`: an avatar where that happens.
-/
namespace AvatarBits

/-- Each tracked parameter is a whole number up to its bound. -/
def Store.Within (s : Store) (t : BoundTable) : Prop :=
  ∀ e ∈ t.entries, ∃ v, s.get? e.1 = some (.int v) ∧ v ≤ e.2

instance (s : Store) (t : BoundTable) : Decidable (s.Within t) :=
  decidable_of_iff (∀ e ∈ t.entries, ((s.get? e.1).bind ParamValue.toInt?).any (· ≤ e.2) = true) <| by
    unfold Store.Within
    refine forall₂_congr fun e _ => ?_
    cases h : s.get? e.1 with
    | none => simp
    | some v => cases v <;> simp [ParamValue.toInt?]

/-- A copy that brings its target a number whose whole part is above the bound. -/
inductive DriverAction.Overruns (t : BoundTable) (s : Store) : DriverAction → Prop
  | copy {name source : String} {convert : Bool} {range : RangeConversion} {b : Int} :
    (name, b) ∈ t.entries →
    b < (if convert then range.apply (s.number source) else s.number source).truncate →
    Overruns t s (.copy name source convert range)

/-! ## Writes -/

namespace Store

/-- A write keeps a store within bounds exactly if its whole part is not above the bound. -/
theorem within_write {s : Store} {t : BoundTable} (h : s.Within t) (name : String) (x : Single) :
    (s.write name x).Within t ↔ ∀ b, (name, b) ∈ t.entries → x.truncate ≤ b := by
  constructor
  · intro hw b hb
    obtain ⟨v, hv, -⟩ := h _ hb
    obtain ⟨w, hw, hle⟩ := hw _ hb
    rw [get?_write, if_pos rfl, hv] at hw
    obtain rfl : x.truncate = w := ParamValue.int.inj (Option.some.inj hw)
    exact hle
  · intro hle e he
    obtain ⟨v, hv, hvb⟩ := h e he
    rw [get?_write]
    by_cases hn : e.1 = name
    · subst hn
      refine ⟨x.truncate, ?_, hle e.2 he⟩
      rw [if_pos rfl, hv]
      rfl
    · exact ⟨v, by rw [if_neg hn, hv], hvb⟩

/-- A tracked parameter read as a number. -/
theorem number_of_int {s : Store} {name : String} {v : Int} (h : s.get? name = some (.int v)) :
    s.number name = .ofInt v := by
  unfold number
  rw [h]
  rfl

end Store

/-! ## Actions of an avatar -/

namespace Avatar

variable {a : Avatar}

/-- What one action of an avatar makes of a store within the bounds. -/
theorem within_perform_iff {d : DriverAction}
    (hd : ∀ name x, d.Gives name x → a.Handled name x) (hadd : ∀ name x, d ≠ .add name x)
    {s : Store} (hs : s.Within a.analyze.bounds) (state : String) :
    (perform state [d] s).1.Within a.analyze.bounds ↔ ¬ d.Overruns a.analyze.bounds s := by
  cases d with
  | set name x =>
    have hw : (s.write name x).Within a.analyze.bounds :=
      (Store.within_write hs name x).2 fun b hb => handled_le hb (hd _ _ (.value name x))
    exact iff_of_true hw fun h => nomatch h
  | add name x => exact absurd rfl (hadd name x)
  | random name low high chance => exact iff_of_true hs fun h => nomatch h
  | copy name source convert range =>
    refine (Store.within_write hs name _).trans ⟨?_, ?_⟩
    · rintro hle ⟨hb, hlt⟩
      exact absurd (hle _ hb) (Int.not_le.2 hlt)
    · intro hno b hb
      exact Int.not_lt.1 fun hlt => hno (.copy hb hlt)

/-- A conversion between ranges with whole ends overruns nothing while the source is within its
range. -/
theorem not_overruns_of_whole {name source : String} {range : RangeConversion}
    (hd : ∀ n x, (DriverAction.copy name source true range).Gives n x → a.Handled n x)
    {p q u v : Int} (hr : range.Whole p q u v) {s : Store} {i : Int}
    (hi : s.get? source = some (.int i)) (hp : p ≤ i) (hq : i ≤ q) :
    ¬ (DriverAction.copy name source true range).Overruns a.analyze.bounds s := by
  rintro ⟨hb, hlt⟩
  obtain ⟨-, -, hu, hv⟩ := hr.ends_lt
  have h0 := bound_nonneg hb
  have hmin := handled_le hb (hd _ _ (.destMin name source range))
  have hmax := handled_le hb (hd _ _ (.destMax name source range))
  rw [hr.destMin_eq, Binary.truncate_ofInt (by omega)] at hmin
  rw [hr.destMax_eq, Binary.truncate_ofInt (by omega)] at hmax
  rw [if_pos rfl, Store.number_of_int hi] at hlt
  have hle := hr.apply_le hp hq
  omega

/-- **Bounds under writes.** Take any action of an avatar's machines that does not add, and any
store within the bounds of the analysis. Entering a state that has this action, in any layer, keeps
the store within the bounds exactly if the state's writes are left out there or the action is no
copy that overruns a bound. So every set or random action keeps it there, and so does a copy that
converts between ranges with whole ends while its source is within the source range. -/
theorem within_enter_iff {k : StateMachine} {b : Behaviour} {d : DriverAction} (hk : a.Runs k)
    (hb : k.Behaves b) (hd : d ∈ b.actions) (hadd : ∀ name x, d ≠ .add name x) {m : Machine}
    {id : Nat} {state : LayerState} (hid : m.states[id]? = some state) (hact : state.actions = [d])
    {i : Instance} (hs : i.store.Within a.analyze.bounds) :
    ((m.enter id i).1.store.Within a.analyze.bounds ↔
        (state.localOnly && !i.store.isSet isLocalName) = true
          ∨ ¬ d.Overruns a.analyze.bounds i.store)
      ∧ ((∀ name source convert range, d ≠ .copy name source convert range) →
        (m.enter id i).1.store.Within a.analyze.bounds)
      ∧ ∀ name source range p q u v x, d = .copy name source true range → range.Whole p q u v →
        i.store.get? source = some (.int x) → p ≤ x → x ≤ q →
        (m.enter id i).1.store.Within a.analyze.bounds := by
  have hgives : ∀ name x, d.Gives name x → a.Handled name x :=
    fun name x hg => .action hk hb hd hg
  have hiff : (m.enter id i).1.store.Within a.analyze.bounds ↔
      (state.localOnly && !i.store.isSet isLocalName) = true
        ∨ ¬ d.Overruns a.analyze.bounds i.store := by
    cases hskip : state.localOnly && !i.store.isSet isLocalName with
    | true =>
      have he : m.enter id i = ({ i with current := id }, none) := by
        unfold Machine.enter
        simp only [hid, hskip, if_true]
      rw [he]
      exact iff_of_true hs (Or.inl rfl)
    | false =>
      have he : (m.enter id i).1.store = (perform state.name [d] i.store).1 := by
        unfold Machine.enter
        simp only [hid, hskip, hact, Bool.false_eq_true, if_false]
      rw [he, within_perform_iff hgives hadd hs]
      simp
  refine ⟨hiff, ?_, ?_⟩
  · intro hcopy
    refine hiff.2 (Or.inr ?_)
    rintro ⟨-, -⟩
    exact hcopy _ _ _ _ rfl
  · rintro name source range p q u v x rfl hr hx hp hq
    exact hiff.2 (Or.inr (not_overruns_of_whole hgives hr hx hp hq))

/-! ## Two copies -/

/-- An avatar with two synced integers, one that starts at a hundred and one that starts at zero,
and a machine with one action. -/
def acting (d : DriverAction) : Avatar where
  parameters := some [⟨"Hue", .int, true, 100, false⟩, ⟨"Glow", .int, true, 0, false⟩]
  layers := [⟨.fx, some {
    layers := [{ name := "Colours", machine := { behaviours := [.driver { actions := [d] }] } }] }⟩]

theorem acting_runs (d : DriverAction) : ∃ k b, (acting d).Runs k ∧ k.Behaves b ∧ d ∈ b.actions :=
  ⟨_, _, ⟨_, List.mem_cons_self, _, List.mem_cons_self, rfl, .self _⟩,
    Or.inl List.mem_cons_self, List.mem_cons_self⟩

/-- A layer with one state that has one action. -/
def actor (d : DriverAction) : Machine :=
  .ofLayer { name := "Colours", writeDefaults := false, states := [⟨"Glowing", false, [d], false⟩] }

/-- An instance in which both integers have their first values. -/
def fresh : Instance :=
  { current := 0, started := true, store := ⟨[("Hue", .int 100), ("Glow", .int 0)]⟩ }

/-- A copy that halves the range keeps the bounds, also from the far end of the range. -/
theorem within_enter_iff_halved :
    let d : DriverAction := .copy "Glow" "Hue" true ⟨0, 100, 0, 50⟩
    fresh.store.Within (acting d).analyze.bounds
      ∧ ((actor d).enter 0 fresh).1.store.Within (acting d).analyze.bounds := by
  intro d
  obtain ⟨k, b, hk, hb, hd⟩ := acting_runs d
  have hs : fresh.store.Within (acting d).analyze.bounds := by decide +kernel
  have hstate : (actor d).states[0]? = some ⟨"Glowing", false, [d], false⟩ := rfl
  have h := within_enter_iff hk hb hd (fun _ _ h => nomatch h) hstate rfl hs
  have hr : RangeConversion.Whole ⟨0, 100, 0, 50⟩ 0 100 0 50 :=
    ⟨by decide +kernel, by decide +kernel, by decide +kernel, by decide +kernel, by decide,
      by decide, by decide⟩
  exact ⟨hs, h.2.2 _ _ _ _ _ _ _ _ rfl hr rfl (by decide) (by decide)⟩

/-- The avatar runs the action, and entering a state with it brings a hundred to a parameter whose
bound is below, from a store within the bounds. -/
def BringsBeyond (d : DriverAction) : Prop :=
  (∃ k b, (acting d).Runs k ∧ k.Behaves b ∧ d ∈ b.actions)
    ∧ fresh.store.Within (acting d).analyze.bounds
    ∧ ((actor d).enter 0 fresh).1.get? "Glow" = some (.int 100)
    ∧ ¬ ((actor d).enter 0 fresh).1.store.Within (acting d).analyze.bounds

/-- A copy that converts nothing does so, and one that converts from a range which the source has
left. -/
theorem copied_beyond : BringsBeyond (.copy "Glow" "Hue" false {})
    ∧ BringsBeyond (.copy "Glow" "Hue" true ⟨0, 1, 0, 1⟩) :=
  ⟨⟨acting_runs _, by decide +kernel⟩, ⟨acting_runs _, by decide +kernel⟩⟩

end Avatar

end AvatarBits
