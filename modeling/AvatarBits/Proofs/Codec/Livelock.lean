import AvatarBits.Proofs.Codec.Settling

/-!
# Runs that do not settle

On a brink, the encode tree never comes to rest. From the root it goes down to
the node on whose brink the number is, by way of those above it, since the number
has not left their spans; that node lets it in and sends it back at once. A node
elsewhere sends it back too, because the number is not in its span, and a leaf
does because the number is not whole. So an edge is enabled at every place, and a
run fails when it has fired as many transitions as it may.

These are the only runs of a codec's layers that fail, whatever the parameter,
the bits and the mark of the wearer hold.

* `Layer.Acts`: the side on which a run takes place.

Results:
* `Codec.exists_step_of_onBrink`: on a brink, a step leads on from every place.
* `Codec.run_settles`: off the brinks, runs succeed.
* `Codec.run_settles_iff`: which runs of a layer settle, after any events.
-/
namespace AvatarBits

/-! Powers are those of the core library here, whatever else is imported. -/
attribute [local instance (2000)] instPowNat

open Place (spanning)

/-! ## Steps on a brink -/

namespace Place

/-- A brink is between two whole numbers, of which one is at an end of the span. -/
theorem Brink.units {p : Place} {x : Single} (h : p.Brink x) (hhi : p.hi < 256) :
    ∃ a : Int, ∃ b : Nat, x.units? = some a ∧ (b = p.lo ∨ b = p.hi + 1)
      ∧ ((b : Int) - 1) * Binary.unit .single < a ∧ a < b * Binary.unit .single := by
  have hlh := p.lo_le_hi
  rcases h with ⟨h1, h2⟩ | ⟨h1, h2⟩ <;> rw [Binary.lt_iff] at h1 h2 <;>
    obtain ⟨k, a, hk, ha, hlow⟩ := h1 <;> obtain ⟨a', k', ha', hk', hhigh⟩ := h2 <;>
    obtain rfl := Option.some.inj (ha.symm.trans ha') <;>
    rw [Codec.units_threshold (by omega) (by omega)] at hk hk' <;>
    obtain rfl := Option.some.inj hk <;> obtain rfl := Option.some.inj hk'
  · exact ⟨a, p.lo, ha, Or.inl rfl, hlow, hhigh⟩
  · refine ⟨a, p.hi + 1, ha, Or.inr rfl, ?_, ?_⟩
    · rwa [Int.natCast_add, Int.natCast_one, Int.add_sub_cancel]
    · rwa [Int.natCast_add, Int.natCast_one]

/-- An end of a span is a multiple of the span. -/
theorem span_dvd_of_end {p : Place} {b : Nat} (h : b = p.lo ∨ b = p.hi + 1) : p.span ∣ b := by
  have hs := p.span_pos
  rcases h with rfl | rfl
  · exact Nat.dvd_mul_left _ _
  · refine ⟨p.index + 1, ?_⟩
    rw [Nat.mul_add, Nat.mul_comm, ← lo]
    unfold hi
    omega

/-- A place with an end of another within its span, other than at its own first value, is above
it. -/
theorem above_of_end {p r : Place} {b : Nat} (hb : b = r.lo ∨ b = r.hi + 1) (hlow : p.lo < b)
    (hhigh : b ≤ p.hi) : r.level < p.level ∧ p.Covers r.lo := by
  have hs := p.span_pos
  have hlevel : r.level < p.level := Nat.lt_of_not_le fun hle => by
    -- otherwise the end would be a multiple of this span too
    obtain ⟨k, rfl⟩ := Nat.dvd_trans (Nat.pow_dvd_pow radix hle) (span_dvd_of_end hb)
    have hc : p.Covers ((radix ^ p.level * k : Nat) : Int) :=
      (covers_iff _ _).2 ⟨by omega, by omega⟩
    rw [Codec.covers_natCast, span, Nat.mul_div_cancel_left _ (Nat.pow_pos (by decide))] at hc
    rw [lo, span, ← hc, Nat.mul_comm] at hlow
    exact Nat.lt_irrefl _ hlow
  refine ⟨hlevel, ?_⟩
  rcases hb with rfl | rfl
  · exact (covers_iff _ _).2 ⟨by omega, by omega⟩
  · have hr : r = spanning r.hi r.level :=
      covers_iff_eq_spanning.1 ((covers_iff _ _).2 ⟨by have := r.lo_le_hi; omega, by omega⟩)
    have hp : p = spanning r.hi p.level :=
      covers_iff_eq_spanning.1 ((covers_iff _ _).2 ⟨by omega, by omega⟩)
    have hlo : r.Covers r.lo := (covers_iff _ _).2 ⟨by omega, by have := r.lo_le_hi; omega⟩
    rw [hp]
    exact spanning_covers_mono (Nat.le_of_lt hlevel) (hr ▸ hlo)

end Place

namespace Codec

section
variable {c : Codec} {s : Store} {v : ParamValue} {r p : Place}

/-- From a place above the one on whose brink the number is, the encode tree goes down. -/
theorem exists_enter_of_above (hv : s.get? c.parameter = some v) (hr : c.Has r)
    (hl : r.level < c.depth) (h0 : 0 < r.level) (hbrink : r.Brink v.toSingle) (hp : c.Has p)
    (hlevel : r.level < p.level) (hcov : p.Covers r.lo) :
    ∃ q ∈ c.children p, (c.enter .encode q).all (·.holds s) = true := by
  have hlh := r.lo_le_hi
  let q := spanning r.lo (p.level - 1)
  have hq : q ∈ c.children p := by
    have hlo : q.lo ≤ c.bound := Nat.le_trans (Place.spanning_lo_le _ _) hr.2
    refine mem_children.2 ⟨Nat.sub_add_cancel (by omega), ?_, hlo⟩
    rw [Place.spanning_index_succ, Nat.sub_add_cancel (by omega)]
    exact (congrArg Place.index (Place.covers_iff_eq_spanning.1 hcov)).symm
  refine ⟨q, hq, ?_⟩
  -- the span of this child holds that of the place on whose brink the number is
  have hover : ∀ y : Int, r.Covers y → q.Covers y := by
    intro y hy
    have hspan : r = spanning r.lo r.level :=
      Place.covers_iff_eq_spanning.1 ((Place.covers_iff _ _).2 ⟨by omega, by omega⟩)
    rw [hspan] at hy
    exact Place.spanning_covers_mono (by omega) hy
  have hlo := (Place.covers_iff q _).1 (hover r.lo ((Place.covers_iff _ _).2 ⟨by omega, by omega⟩))
  have hhi := (Place.covers_iff q _).1 (hover r.hi ((Place.covers_iff _ _).2 ⟨by omega, by omega⟩))
  have hq256 := c.hi_lt (has_of_mem_children hp hq) (level_lt_of_mem_children hp hq)
  have hK := Binary.unit_pos (f := .single)
  obtain ⟨a, b, ha, hb, hlow, hhigh⟩ := hbrink.units (c.hi_lt hr hl)
  have hlow' : ((q.lo : Int) - 1) * Binary.unit .single < a :=
    Int.lt_of_le_of_lt (Int.mul_le_mul_of_nonneg_right (by omega) (Int.le_of_lt hK)) hlow
  have hhigh' : a < ((q.hi : Int) + 1) * Binary.unit .single :=
    Int.lt_of_lt_of_le hhigh (Int.mul_le_mul_of_nonneg_right (by omega) (Int.le_of_lt hK))
  rw [enter_encode_iff hv, if_neg (show q.level ≠ 0 by show p.level - 1 ≠ 0; omega),
    Binary.lt_of_units (units_threshold (by omega) (by omega)) ha,
    Binary.lt_of_units ha (units_threshold (by omega) (by omega))]
  exact ⟨decide_eq_true hlow', decide_eq_true hhigh'⟩

/-- **No rest.** On a brink, a step of the encode tree leads on from every place. -/
theorem exists_step_of_onBrink (h : c.OnBrink s) (hp : c.Has p) :
    ∃ q, c.step? .encode s p = some q := by
  obtain ⟨v, r, hv, hr, h0, hl, hbrink⟩ := h
  have hdown : (∃ q ∈ c.children p, (c.enter .encode q).all (·.holds s) = true) →
      ∃ q, c.step? .encode s p = some q := by
    rintro ⟨q, hq, he⟩
    cases hf : (c.children p).find? (fun q => (c.enter .encode q).all (·.holds s)) with
    | none => exact absurd he (List.find?_eq_none.1 hf q hq)
    | some q' => exact ⟨q', step?_of_enter hf⟩
  have hback : c.Leaves .encode s p → ∃ q, c.step? .encode s p = some q := by
    intro hleaves
    cases hf : (c.children p).find? (fun q => (c.enter .encode q).all (·.holds s)) with
    | none => exact ⟨c.root, (step?_of_stuck hf).trans (if_pos hleaves)⟩
    | some q' => exact ⟨q', step?_of_enter hf⟩
  by_cases hroot : p.level < c.depth
  · by_cases hleaves : (c.leave .encode p).any (·.holds s) = true
    · exact hback ⟨hroot, hleaves⟩
    · -- what does not send the number back has the brink in its span
      obtain ⟨a, b, ha, hb, hlow, hhigh⟩ := hbrink.units (c.hi_lt hr hl)
      have hK := Binary.unit_pos (f := .single)
      have hlh := p.lo_le_hi
      have hp256 := c.hi_lt hp hroot
      rw [leave_encode_iff hv] at hleaves
      have hends : p.lo < b ∧ b ≤ p.hi := by
        by_cases hleaf : p.level = 0
        · obtain ⟨h1, h2⟩ := lo_hi_of_leaf hleaf
          rw [if_pos hleaf, Binary.eqv_of_units ha (units_threshold (by omega) (by omega)),
            decide_eq_false_iff_not, Classical.not_not] at hleaves
          rw [hleaves] at hlow hhigh
          have h3 := Int.lt_of_mul_lt_mul_right hlow (Int.le_of_lt hK)
          have h4 := Int.lt_of_mul_lt_mul_right hhigh (Int.le_of_lt hK)
          omega
        · rw [if_neg hleaf, Binary.lt_of_units ha (units_threshold (by omega) (by omega)),
            Binary.lt_of_units (units_threshold (by omega) (by omega)) ha, decide_eq_true_iff,
            decide_eq_true_iff, not_or, Int.not_lt, Int.not_lt] at hleaves
          have h3 := Int.lt_of_mul_lt_mul_right (Int.lt_of_le_of_lt hleaves.1 hhigh)
            (Int.le_of_lt hK)
          have h4 := Int.lt_of_mul_lt_mul_right (Int.lt_of_lt_of_le hlow hleaves.2)
            (Int.le_of_lt hK)
          omega
      obtain ⟨hlevel, hcov⟩ := Place.above_of_end hb hends.1 hends.2
      exact hdown (exists_enter_of_above hv hr hl h0 hbrink hp hlevel hcov)
  · have hd : p.level = c.depth := Nat.le_antisymm hp.1 (Nat.le_of_not_lt hroot)
    obtain rfl := eq_root hp hd
    exact hdown (exists_enter_of_above hv hr hl h0 hbrink hp (hd ▸ hl) (covers_root_of_le hr.2))

/-- The encode tree does not write what it looks at. -/
theorem OnBrink.deposit (h : c.OnBrink s) (p : Place) : c.OnBrink (c.deposit .encode s p) := by
  obtain ⟨v, r, hv, hrest⟩ := h
  exact ⟨v, r, (get?_deposit c.parameter_not_mem_bits).trans hv, hrest⟩

end

end Codec

/-! ## Runs -/

/-- A run takes place on a side: the instance is there already, or it is told its side now. -/
def Layer.Acts (l : Layer) (role : Role) (i : Instance) : Prop :=
  l.Branch role i.current ∨ i.current = Scaffold.entry ∧ i.store.side? = some role

namespace Layer.Hosts

variable {l : Layer} {c : Codec} {base : Nat} (h : l.Hosts c .encode base) {i : Instance}
include h

/-- On a brink, transitions fire for as long as they may. -/
theorem settle_of_onBrink {p : Place} (hp : c.Has p) (hi : i.current = c.address .encode base p)
    (hb : c.OnBrink i.store) (budget fired : Nat) :
    ((Machine.ofLayer l).settle budget fired i).2
      = .error (.unsettled l.name (Machine.ofLayer l).limit) := by
  induction budget generalizing i p fired with
  | zero => rfl
  | succ budget ih =>
    obtain ⟨q, hstep⟩ := Codec.exists_step_of_onBrink hb hp
    have hn := h.next?_step hp hi
    rw [hstep, Option.map_some] at hn
    have hq := Codec.has_of_step? hp hstep
    rw [Machine.settle, hn]
    dsimp only
    rw [h.enter_eq hq i]
    exact ih hq rfl (hb.deposit q) (fired + 1)

/-- On a brink, a run on the wearer's side fails. -/
theorem run_of_onBrink (hi : l.Standing i) (ha : l.Acts .encode i) (hb : c.OnBrink i.store) :
    ((Machine.ofLayer l).run i).2 = .error (.unsettled l.name (Machine.ofLayer l).limit) := by
  rw [(h.toBegins.run_eq hi.unstarted).1]
  rcases ha with hbranch | ⟨hentry, hside⟩
  · obtain ⟨p, hp, hcur⟩ := h.exists_place hbranch
    exact h.settle_of_onBrink (i := { i with started := true }) hp hcur hb _ _
  · have hn := h.toBegins.next?_entry_eq (i := { i with started := true }) hentry
    simp only [hside, Option.map_some] at hn
    have hroot := h.enter_eq c.has_root { i with started := true }
    rw [Codec.deposit_root, Codec.address_root] at hroot
    rw [Machine.settle, hn]
    dsimp only
    rw [hroot]
    exact h.settle_of_onBrink (i := ⟨Scaffold.rootOf .encode, true, i.store⟩) c.has_root
      (c.address_root .encode base).symm hb _ _

end Layer.Hosts

namespace Codec

variable {c : Codec} {layout : LayerLayout} {wd : Bool} {l : Layer}

/-- A layer of a codec that does not run the encode tree has nothing below the root of that side. -/
theorem eq_encoder_or_ready (hl : l ∈ (c.assemble layout wd).layers) :
    l = c.encoder layout wd ∨ l.Ready .encode := by
  cases layout with
  | fused => exact Or.inl (List.mem_singleton.1 hl)
  | split =>
    rcases List.mem_cons.1 hl with rfl | hl
    · exact Or.inl rfl
    · rw [List.mem_singleton.1 hl]
      exact Or.inr (c.decodeLayer_ready wd)

/-- Off the brinks, a run succeeds. -/
theorem run_settles (hl : l ∈ (c.assemble layout wd).layers) {i : Instance} (hi : l.Standing i)
    (hb : l = c.encoder layout wd → l.Acts .encode i → ¬ c.OnBrink i.store) :
    ∃ n, ((Machine.ofLayer l).run i).2 = .ok n ∧ n ≤ 2 * c.depth + 1 := by
  -- below the root of a side is a tree that is coherent, or nothing
  have hside : ∀ role, l.Acts role i →
      (∃ base, l.Hosts c role base ∧ c.Coherent role i.store) ∨ l.Ready role := by
    intro role ha
    cases role with
    | decode =>
      exact (hosts_or_ready hl .decode).imp_left fun ⟨b, h⟩ => ⟨b, h, c.coherent_decode _⟩
    | encode =>
      refine (eq_encoder_or_ready hl).imp_left fun he => ?_
      obtain ⟨base, h⟩ := c.encoder_hosts layout wd
      exact ⟨base, he ▸ h, coherent_of_not_onBrink (hb he ha)⟩
  rcases hi.place with hentry | ⟨role, hbranch⟩
  · cases hs : i.store.side? with
    | none => exact ⟨0, congrArg Prod.snd ((layer_begins hl).run_waiting hentry hs), by omega⟩
    | some role =>
      rcases hside role (Or.inr ⟨hentry, hs⟩) with ⟨base, h, hco⟩ | h
      · obtain ⟨ps, q, hw, hq, hend, hlen⟩ := exists_strides hco c.has_root
        exact ⟨_, congrArg Prod.snd (h.run_dispatch hentry hs hw hq hend hlen), by omega⟩
      · exact ⟨1, congrArg Prod.snd (h.run_dispatch hentry hs), by omega⟩
  · have hstarted : i.started = true := Bool.of_not_eq_false fun hs =>
      not_branch_entry hl (hi.unstarted hs ▸ hbranch)
    rcases hside role (Or.inl hbranch) with ⟨base, h, hco⟩ | h
    · obtain ⟨p, hp, hcur⟩ := h.exists_place hbranch
      obtain ⟨ps, q, hw, hq, hend, hlen⟩ := exists_strides hco hp
      exact ⟨_, congrArg Prod.snd (h.run_place hstarted hw hp hq hend hlen hcur), by omega⟩
    · exact ⟨0, congrArg Prod.snd (h.run_root hstarted (h.eq_root hbranch)), by omega⟩

/-- **Settling.** Let an instance of a codec's layer be given any values under any names, and run,
any number of times. The next run succeeds, within two ways through the tree and one transition to
its start, unless the layer has the encode tree, the run takes place on the wearer's side, and the
parameter holds a number on the brink of an inner node. Then the run does not settle. -/
theorem run_settles_iff (hl : l ∈ (c.assemble layout wd).layers) (es : List Event) :
    let m := Machine.ofLayer l
    let i := m.play es m.start
    ((∃ n, (m.run i).2 = .ok n ∧ n ≤ 2 * c.depth + 1)
        ↔ ¬ (l = c.encoder layout wd ∧ l.Acts .encode i ∧ c.OnBrink i.store))
      ∧ (l = c.encoder layout wd ∧ l.Acts .encode i ∧ c.OnBrink i.store →
        (m.run i).2 = .error (.unsettled l.name m.limit)) := by
  intro m i
  have hi : l.Standing i := standing_play hl es
  have hfail : l = c.encoder layout wd ∧ l.Acts .encode i ∧ c.OnBrink i.store →
      (m.run i).2 = .error (.unsettled l.name m.limit) := by
    rintro ⟨he, ha, hb⟩
    obtain ⟨base, h⟩ := c.encoder_hosts layout wd
    rw [← he] at h
    exact h.run_of_onBrink hi ha hb
  refine ⟨⟨?_, ?_⟩, hfail⟩
  · rintro ⟨n, hn, -⟩ htrapped
    rw [hfail htrapped] at hn
    cases hn
  · intro hfree
    exact run_settles hl hi fun he ha hb => hfree ⟨he, ha, hb⟩

/-- A codec with inner nodes for `0` to `3` and for `4` to `7`. -/
def five : Codec := ⟨"P", 4, by decide⟩

/-- A wearer's instance is told its side and a number. -/
def wearerEvents (x : Single) : List Event :=
  [.set isLocalName (.bool true), .set "P" (.float x)]

/-- Two numbers between values of one inner node: nothing but its leaves is left out for `2.5`, and
`3.5` is on its brink. -/
theorem run_settles_iff_five :
    let m := Machine.ofLayer (five.fusedLayer true)
    (∃ n, (m.run (m.play (wearerEvents (5 / 2)) m.start)).2 = .ok n ∧ n ≤ 5)
      ∧ (m.run (m.play (wearerEvents (7 / 2)) m.start)).2
        = .error (.unsettled "P_codec" m.limit) := by
  intro m
  have hl : five.fusedLayer true ∈ (five.assemble .fused true).layers := List.mem_cons_self
  have hdepth : five.depth = 2 := by decide +kernel
  refine ⟨?_, ?_⟩
  · have h := (run_settles_iff hl (wearerEvents (5 / 2))).1.2
    rw [hdepth] at h
    refine h ?_
    rintro ⟨-, -, v, ⟨l, i⟩, hv, hp, h0, hd, hbrink⟩
    have hstored : (m.play (wearerEvents (5 / 2)) m.start).store.get? "P"
        = some (.float (5 / 2)) := by decide +kernel
    obtain rfl := Option.some.inj (hv.symm.trans hstored)
    -- the inner nodes are those of the first level
    obtain rfl : l = 1 := by
      have h1 : l < 2 := hdepth ▸ hd
      have h2 : 0 < l := h0
      omega
    have hi : i * 4 ≤ 4 := hp.2
    obtain rfl | rfl : i = 0 ∨ i = 1 := by omega
    · exact absurd hbrink (by unfold Place.Brink; decide +kernel)
    · exact absurd hbrink (by unfold Place.Brink; decide +kernel)
  · refine (run_settles_iff hl (wearerEvents (7 / 2))).2 ⟨rfl, Or.inr ⟨rfl, by decide +kernel⟩, ?_⟩
    exact ⟨.float (7 / 2), ⟨1, 0⟩, by decide +kernel, by unfold Has; decide +kernel, by decide,
      by rw [hdepth]; decide, by unfold Place.Brink; decide +kernel⟩

/-- A number between two values makes the layer of a wearer who has settled go around for ever. -/
theorem unsettled_between :
    let m := Machine.ofLayer (five.fusedLayer true)
    let i := m.play [.set isLocalName (.bool true), .set "P" (.int 2), .run,
      .set "P" (.float (7 / 2))] m.start
    m.stateName? i = some "encode_2" ∧ (m.run i).2 = .error (.unsettled "P_codec" 42) := by
  decide +kernel

end Codec

end AvatarBits
