import AvatarBits.Proofs.Exchange.Session

/-!
# The round-trip check

A codec passes its own check: every value from zero to the bound arrives, on
fresh pairs and on one pair in any order. The exception is a codec of the
built-in parameter itself. Its values take the place of the mark that tells the
two sides apart, so each instance chooses the other side's root, and the check
fails on the first value.

Results:
* `Codec.echo_eq`: any values within the bound arrive, one after another.
* `Codec.verify_ok`: the check of every other parameter succeeds.
* `Codec.verify_isLocal`: that of the built-in parameter fails, and how.
-/
namespace AvatarBits

/-! Powers are those of the core library here, whatever else is imported. -/
attribute [local instance (2000)] instPowNat

namespace Channel

/-- Send values with all their bits, one after another, and look at the other instance's parameter
after each. -/
def echo (c : Channel) : List Int → Pair → Except PackError (List (Option ParamValue))
  | [], _ => return []
  | v :: vs, p => do
    let p ← c.sendThrough (fun _ => true) v p
    return p.receiver.get? c.parameter :: (← c.echo vs p)

end Channel

namespace Codec

/-! ## A parameter of its own -/

/-- A fresh pair of a codec. -/
def freshPair (c : Codec) (layout : LayerLayout) (wd : Bool) : Pair :=
  c.channel.pair (.ofLayer (c.encoder layout wd)) (.ofLayer (c.decoder layout wd))

theorem linked_freshPair (c : Codec) (hc : c.parameter ≠ isLocalName) (layout : LayerLayout)
    (wd : Bool) : ∃ bE bD, c.Linked bE bD (c.freshPair layout wd) 0 := by
  obtain ⟨bE, hE⟩ := c.encoder_hosts layout wd
  obtain ⟨bD, hD⟩ := c.decoder_hosts layout wd
  obtain ⟨s, hs, hsl, -, hss⟩ :=
    c.prepare_eq hc true 0 (Machine.ofLayer (c.encoder layout wd)).start
  obtain ⟨r, hr, hrl, hrv, hrs⟩ :=
    c.prepare_eq hc false (-1) (Machine.ofLayer (c.decoder layout wd)).start
  refine ⟨bE, bD, Nat.zero_le _, ⟨_, rfl, hE⟩, ⟨_, rfl, hD⟩, ⟨c.root, ?_⟩, ⟨c.root, -1, ?_⟩,
    0, Nat.two_pow_pos _, ?_⟩
  · rw [freshPair, Channel.pair, hs]
    exact at_root bE rfl hsl ⟨0, rfl, hss⟩
  · rw [freshPair, Channel.pair, hr]
    exact at_root bD rfl hrl hrv
  · rw [freshPair, Channel.pair, hr]
    exact hrs

section
variable {c : Codec} (hc : c.parameter ≠ isLocalName) {bE bD : Nat} {p : Pair} {y : Nat}
include hc

/-- A value within the bound arrives. -/
theorem transmit_ok (h : c.Linked bE bD p y) {v : Int} (h0 : 0 ≤ v) (hv : v ≤ c.bound) :
    ∃ p', c.channel.transmit v p = .ok p' ∧ c.Linked bE bD p' v.toNat := by
  obtain ⟨p', hs, h', -, hr⟩ := h.send_whole hc v
  have hk : c.keep y v = v.toNat := if_pos ⟨h0, hv⟩
  rw [hk] at h' hr
  have hd : (p'.receiver.get? c.channel.parameter).bind ParamValue.toInt? = some v := by
    rw [show p'.receiver.get? c.channel.parameter = _ from hr]
    show some (v.toNat : Int) = some v
    simp [Int.toNat_of_nonneg h0]
  refine ⟨p', ?_, h'⟩
  rw [Channel.transmit_eq, hs]
  show (if _ = some v then _ else _) = _
  rw [if_pos hd]
  rfl

theorem transmitRun_ok (step : Int) (count : Nat) {v : Int} (h : c.Linked bE bD p y)
    (hv : ∀ k, k < count → 0 ≤ v + k * step ∧ v + k * step ≤ c.bound) :
    ∃ p' y', c.channel.transmitRun step count v p = .ok p' ∧ c.Linked bE bD p' y' := by
  induction count generalizing v p y with
  | zero => exact ⟨p, y, rfl, h⟩
  | succ n ih =>
    have h₀ := hv 0 (Nat.succ_pos n)
    rw [Int.natCast_zero, Int.zero_mul, Int.add_zero] at h₀
    obtain ⟨p₁, hs, h₁⟩ := transmit_ok hc h h₀.1 h₀.2
    obtain ⟨p', y', hr, h'⟩ := ih (v := v + step) h₁ fun k hk => by
      have := hv (k + 1) (Nat.succ_lt_succ hk)
      rw [Int.natCast_add, Int.natCast_one, Int.add_mul, Int.one_mul] at this
      omega
    refine ⟨p', y', ?_, h'⟩
    rw [Channel.transmitRun, hs]
    exact hr

theorem transmitFresh_ok (count : Nat) {v : Int} (h : c.Linked bE bD p y) (h0 : 0 ≤ v)
    (hv : v + count ≤ c.bound + 1) : c.channel.transmitFresh p count v = .ok () := by
  induction count generalizing v with
  | zero => rfl
  | succ n ih =>
    obtain ⟨p₁, hs, -⟩ := transmit_ok hc h h0 (by omega)
    rw [Channel.transmitFresh, hs]
    exact ih (v := v + 1) (by omega) (by omega)

/-- Any values within the bound arrive, one after another. -/
theorem echo_eq (values : List Int) (h : c.Linked bE bD p y)
    (hv : ∀ v ∈ values, 0 ≤ v ∧ v ≤ c.bound) :
    c.channel.echo values p = .ok (values.map fun v => some (.int v)) := by
  induction values generalizing p y with
  | nil => rfl
  | cons v values ih =>
    obtain ⟨h0, hb⟩ := hv v List.mem_cons_self
    obtain ⟨p', hs, h', -, hr⟩ := h.send_whole hc v
    have hk : (c.keep y v : Int) = v := by
      rw [keep, if_pos ⟨h0, hb⟩, Int.toNat_of_nonneg h0]
    have hrest := ih h' fun u hu => hv u (List.mem_cons_of_mem _ hu)
    rw [Channel.echo, hs]
    show (do return p'.receiver.get? c.parameter :: (← c.channel.echo values p')) = _
    rw [hrest, hr, hk]
    rfl

end

/-- What the check of a codec does. -/
theorem verify_eq (c : Codec) (layout : LayerLayout) (wd : Bool) :
    verify (c.encoder layout wd) (c.decoder layout wd) c.parameter c.bound c.bits = (do
      c.channel.transmitFresh (c.freshPair layout wd) (c.bound + 1) 0
      let p ← c.channel.transmitRun 1 (c.bound + 1) 0 (c.freshPair layout wd)
      let _ ← c.channel.transmitRun (-1) (c.bound + 1) c.bound p
      return ()) := by
  have hcount : ((c.bound : Int) + 1).toNat = c.bound + 1 := by omega
  unfold verify
  rw [hcount]
  rfl

/-- The check of a codec's own layers succeeds. -/
theorem verify_ok (c : Codec) (hc : c.parameter ≠ isLocalName) (layout : LayerLayout) (wd : Bool) :
    verify (c.encoder layout wd) (c.decoder layout wd) c.parameter c.bound c.bits = .ok () := by
  obtain ⟨bE, bD, h⟩ := c.linked_freshPair hc layout wd
  obtain ⟨p, y, hup, hl⟩ := transmitRun_ok hc 1 (c.bound + 1) (v := 0) h (by intro k hk; omega)
  obtain ⟨q, z, hdown, -⟩ := transmitRun_ok hc (-1) (c.bound + 1) (v := c.bound) hl
    (by intro k hk; omega)
  have hfresh := transmitFresh_ok hc (c.bound + 1) (v := 0) h (Int.le_refl 0) (by omega)
  rw [verify_eq, hfresh, hup]
  simp only [bind, Except.bind, hdown]
  rfl

/-! ## The built-in parameter -/

/-- On a first run a layer goes to the root of a role; it hosts the tree there, or has nothing below
that root. Either way it writes the outputs of the role only. -/
theorem first_run_frame {c : Codec} {l : Layer} {role : Role}
    (h : (∃ base, l.Hosts c role base) ∨ l.Ready role) {i : Instance} (hi : i.started = false)
    {v : ParamValue} (hv : i.store.get? isLocalName = some v)
    (hr : v.isSet = decide (role = .encode)) {x : Int} (hx : c.Reads role i.store x) :
    ∃ n j, (Machine.ofLayer l).run i = (j, .ok n)
      ∧ ∀ m, m ∉ c.outputs role → j.get? m = i.get? m := by
  rcases h with ⟨base, h⟩ | h
  · obtain ⟨n, -, hrun, -⟩ := h.run_eq c.has_root (Or.inr ⟨hi, rfl, v, hv, hr⟩) hx
    exact ⟨n, _, hrun, fun m hm => get?_foldl_deposit hm⟩
  · -- the root is not left again
    let i₀ : Instance := { i with current := Scaffold.entry, started := true }
    let i₁ : Instance := { i with current := Scaffold.rootOf role, started := true }
    have he : (Machine.ofLayer l).enter l.defaultState { i with started := true } = (i₀, none) :=
      h.enter_default _
    have hf : (Machine.ofLayer l).Fires i₀ [Scaffold.rootOf role] i₁ :=
      .single (h.next?_entry (i := i₀) rfl hv hr) (Machine.enter_silent h.root_at rfl _)
    have hn : (Machine.ofLayer l).next? i₁ = none := by
      rw [Machine.next?_eq, show i₁.current = Scaffold.rootOf role from rfl, h.root_idle]
      split <;> rfl
    obtain ⟨hrun, -⟩ := Machine.first_run_of_fires hi he hf hn
      (by simp only [Machine.limit, List.length_singleton]; omega)
    exact ⟨_, i₁, hrun, fun m _ => rfl⟩

/-- The layer that encodes hosts the decode tree too, or has nothing there. -/
theorem encoder_decodes (c : Codec) (layout : LayerLayout) (wd : Bool) :
    (∃ base, (c.encoder layout wd).Hosts c .decode base)
      ∨ (c.encoder layout wd).Ready .decode := by
  cases layout with
  | fused => exact Or.inl (c.decoder_hosts .fused wd)
  | split => exact Or.inr (c.encodeLayer_ready wd)

theorem decoder_encodes (c : Codec) (layout : LayerLayout) (wd : Bool) :
    (∃ base, (c.decoder layout wd).Hosts c .encode base)
      ∨ (c.decoder layout wd).Ready .encode := by
  cases layout with
  | fused => exact Or.inl (c.encoder_hosts .fused wd)
  | split => exact Or.inr (c.decodeLayer_ready wd)

/-- An instance prepared for the check of the built-in parameter: its value stands where the side
was told. -/
theorem prepare_isLocal (c : Codec) (hc : c.parameter = isLocalName) (isLocal : Bool) (v : Int)
    (i : Instance) : ∃ s : Store, c.channel.prepare isLocal v i = { i with store := s }
      ∧ s.get? isLocalName = some (.int v) ∧ c.Spells s 0 := by
  obtain ⟨s, he, hf, h0⟩ :=
    c.cleared_eq ((i.set isLocalName (.bool isLocal)).set c.parameter (.int v))
  refine ⟨s, he, ?_, h0⟩
  rw [hf _ c.isLocal_not_mem_bits]
  simp only [Instance.set, Store.get?_set, hc, if_true]

theorem isSet_int {v : Int} (hv : v.natAbs < 16777216) :
    (ParamValue.int v).isSet = decide (v ≠ 0) := by
  simp [ParamValue.isSet, ParamValue.toSingle, Binary.isZero_ofInt hv, decide_not]

/-- A wearer's instance whose mark was overwritten by a zero decodes and keeps its bits. -/
theorem run_unmarked (c : Codec) (hc : c.parameter = isLocalName) (layout : LayerLayout) (wd : Bool)
    {i : Instance} (hi : i.started = false) (hs : c.Spells i.store 0) :
    ∃ n j, (Machine.ofLayer (c.encoder layout wd)).run (i.set c.parameter (.int 0)) = (j, .ok n)
      ∧ c.Spells j.store 0 := by
  have hl : (i.set c.parameter (.int 0)).store.get? isLocalName = some (.int 0) := by
    simp [Instance.set, Store.get?_set, if_pos hc.symm]
  have hs' : c.Spells (i.set c.parameter (.int 0)).store 0 := by
    intro k hk
    rw [Instance.set, Store.get?_set, if_neg (bitName_ne_parameter _ _)]
    exact hs k hk
  have hr : c.Reads .decode (i.set c.parameter (.int 0)).store (0 : Nat) :=
    ⟨0, rfl, Nat.two_pow_pos _, hs'⟩
  obtain ⟨n, j, hrun, hf⟩ := first_run_frame (c.encoder_decodes layout wd)
    (i := i.set c.parameter (.int 0)) hi hl (isSet_int (by decide)) hr
  refine ⟨n, j, hrun, ?_⟩
  intro k hk
  have hm : bitName c.parameter k ∉ c.outputs .decode := by
    intro hm
    exact bitName_ne_parameter _ _ (List.mem_singleton.1 hm)
  exact (hf _ hm).trans (hs' k hk)

/-- Another instance whose mark is `-1` encodes and keeps it. -/
theorem run_marked (c : Codec) (hc : c.parameter = isLocalName) (layout : LayerLayout) (wd : Bool)
    {i : Instance} (hi : i.started = false) (hl : i.store.get? isLocalName = some (.int (-1))) :
    ∃ n j, (Machine.ofLayer (c.decoder layout wd)).run i = (j, .ok n)
      ∧ j.get? c.parameter = some (.int (-1)) := by
  have hr : c.Reads .encode i.store (-1) := by
    show i.store.get? c.parameter = _
    simp [hc, hl]
  obtain ⟨n, j, hrun, hf⟩ :=
    first_run_frame (c.decoder_encodes layout wd) hi hl (isSet_int (by decide)) hr
  exact ⟨n, j, hrun, (hf _ c.parameter_not_mem_bits).trans hr⟩

/-- The first value of the built-in parameter does not arrive: the wearer's instance decodes, and
the other one, whose `-1` counts as the mark of the wearer, encodes. -/
theorem transmit_isLocal (c : Codec) (hc : c.parameter = isLocalName) (layout : LayerLayout)
    (wd : Bool) : c.channel.transmit 0 (c.freshPair layout wd)
      = .error (.roundTrip isLocalName 0 (some (-1))) := by
  let e := Machine.ofLayer (c.encoder layout wd)
  let d := Machine.ofLayer (c.decoder layout wd)
  obtain ⟨s, hs, -, hss⟩ := c.prepare_isLocal hc true 0 e.start
  obtain ⟨r, hr, hrl, hrs⟩ := c.prepare_isLocal hc false (-1) d.start
  have hp : c.freshPair layout wd
      = ⟨e, d, { e.start with store := s }, { d.start with store := r }⟩ := by
    rw [freshPair, Channel.pair, hs, hr]
  obtain ⟨n, s₁, hrun, hs₁⟩ :=
    c.run_unmarked hc layout wd (i := { e.start with store := s }) rfl hss
  obtain ⟨t, b, ht, hfr, -, -, -⟩ :=
    spells_deliver (r := { d.start with store := r }) hs₁ hrs (fun _ => true)
  obtain ⟨m, r₁, hrun', hval⟩ := c.run_marked hc layout wd (i := { d.start with store := t }) rfl
    ((hfr _ c.isLocal_not_mem_bits).trans hrl)
  have hsend : c.channel.sendThrough (fun _ => true) 0 (c.freshPair layout wd)
      = .ok ⟨e, d, s₁, r₁⟩ := by
    rw [hp]
    unfold Channel.sendThrough
    simp only [channel, e, d, hrun, ht, hrun']
    rfl
  have hdec : (r₁.get? c.parameter).bind ParamValue.toInt? = some (-1) := by
    rw [hval]
    rfl
  rw [Channel.transmit_eq, hsend]
  show (if (r₁.get? c.parameter).bind ParamValue.toInt? = some 0 then _
    else Except.error (PackError.roundTrip c.parameter 0
      ((r₁.get? c.parameter).bind ParamValue.toInt?))) = _
  rw [hdec, if_neg (by decide), hc]

/-- The check of a codec of the built-in parameter fails on the first value. -/
theorem verify_isLocal (c : Codec) (hc : c.parameter = isLocalName) (layout : LayerLayout)
    (wd : Bool) : verify (c.encoder layout wd) (c.decoder layout wd) c.parameter c.bound c.bits
      = .error (.roundTrip isLocalName 0 (some (-1))) := by
  rw [verify_eq, Channel.transmitFresh, c.transmit_isLocal hc layout wd]
  rfl

end Codec

end AvatarBits
