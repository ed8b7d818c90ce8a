import AvatarBits.Proofs.Codec.Running
import AvatarBits.Simulation.RoundTrip

/-!
# Sending values from the wearer to the others

A value is sent by setting the wearer's parameter, running the wearer's instance,
carrying some of the bits over and running the other instance
(`Channel.sendThrough`). Bits may get lost on the way; the round-trip check of
the program is the case in which all of them arrive.

A pair stays `Codec.Linked` by the last value that could be encoded: the wearer's
bits spell it, and the other instance has some bits to read.

Results:
* `Channel.transmit_eq`: the program's own step is one with all bits.
* `Codec.Linked.send`: sending never fails and keeps a pair linked.
* `Codec.Linked.agree`: when the bits agree, the other instance shows the value.
-/
namespace AvatarBits

/-! Powers are those of the core library here, whatever else is imported. -/
attribute [local instance (2000)] instPowNat

/-! ## Setting several names -/

/-- Setting names from outside changes those names only. -/
theorem setAll_eq (names : List String) (f : String → ParamValue) (i : Instance) :
    ∃ s : Store, names.foldl (fun i n => i.set n (f n)) i = { i with store := s }
      ∧ ∀ n, s.get? n = if n ∈ names then some (f n) else i.store.get? n := by
  induction names generalizing i with
  | nil => exact ⟨i.store, rfl, fun n => rfl⟩
  | cons m names ih =>
    obtain ⟨s, he, hs⟩ := ih (i.set m (f m))
    refine ⟨s, he, ?_⟩
    intro n
    rw [hs, Instance.set, Store.get?_set]
    by_cases hn : n ∈ names
    · rw [if_pos hn, if_pos (List.mem_cons_of_mem _ hn)]
    · rw [if_neg hn]
      by_cases hm : n = m
      · rw [if_pos hm, if_pos (hm ▸ List.mem_cons_self), hm]
      · rw [if_neg hm, if_neg fun hc => (List.mem_cons.1 hc).elim hm hn]

/-- Any bits spell some number. -/
theorem exists_spelled (f : Nat → Bool) (w : Nat) :
    ∃ b, b < 2 ^ w ∧ ∀ k, k < w → b.testBit k = f k := by
  induction w generalizing f with
  | zero => exact ⟨0, by decide, fun k hk => absurd hk (Nat.not_lt_zero k)⟩
  | succ w ih =>
    obtain ⟨b, hb, hf⟩ := ih fun k => f (k + 1)
    have ht : (f 0).toNat ≤ 1 := by cases f 0 <;> decide
    refine ⟨2 * b + (f 0).toNat, by rw [Nat.pow_succ]; omega, ?_⟩
    intro k hk
    cases k with
    | zero =>
      rw [Nat.testBit_zero]
      cases f 0 <;> simp
    | succ k =>
      rw [Nat.testBit_succ, ← hf k (by omega)]
      congr 1
      omega

/-! ## One step -/

namespace Channel

/-- Send a value; of the bits, only some get through. -/
def sendThrough (c : Channel) (through : String → Bool) (value : Int) (p : Pair) :
    Except PackError Pair := do
  let (sender, sent) := p.encoder.run (p.sender.set c.parameter (.int value))
  let _ ← sent
  let (receiver, received) := p.decoder.run (deliver (c.bits.filter through) sender p.receiver)
  let _ ← received
  return { p with sender, receiver }

/-- Send values one after another, each with the bits that get through. -/
def sendAll (c : Channel) (steps : List (Int × (String → Bool))) (p : Pair) :
    Except PackError Pair :=
  steps.foldlM (fun p s => c.sendThrough s.2 s.1 p) p

/-- An instance on one side with bits that are not set. -/
def blank (c : Channel) (isLocal : Bool) (i : Instance) : Instance :=
  c.bits.foldl (fun i bit => i.set bit (.bool false)) (i.set isLocalName (.bool isLocal))

/-- The program's own step sends all bits and then looks at what has arrived. -/
theorem transmit_eq (c : Channel) (value : Int) (p : Pair) :
    c.transmit value p = (do
      let q ← c.sendThrough (fun _ => true) value p
      let decoded := (q.receiver.get? c.parameter).bind ParamValue.toInt?
      if decoded = some value then return q else throw (.roundTrip c.parameter value decoded)) := by
  unfold transmit sendThrough
  rw [List.filter_eq_self.2 fun _ _ => rfl]
  cases h : p.encoder.run (p.sender.set c.parameter (.int value)) with
  | mk s sent =>
    cases sent with
    | error e => rfl
    | ok n =>
      cases h' : p.decoder.run (deliver c.bits s p.receiver) with
      | mk r received =>
        cases received with
        | error e => simp only [bind, Except.bind, h']
        | ok m =>
          simp only [bind, Except.bind, h']
          rfl

end Channel

/-! ## Each side -/

namespace Codec

/-- What carries a codec's values. -/
def channel (c : Codec) : Channel := ⟨c.parameter, c.bits⟩

/-- The value that counts after a number has been sent: numbers beyond the bound are not encoded. -/
def keep (c : Codec) (y : Nat) (v : Int) : Nat := if 0 ≤ v ∧ v ≤ c.bound then v.toNat else y

section
variable {c : Codec} {role : Role} {base : Nat} {i : Instance} {q : Place} {y : Int}

/-- What is shown may be read from another store on the same side. -/
theorem At.withStore (ha : c.At role base i q y) {s : Store}
    (hl : s.get? isLocalName = i.store.get? isLocalName) (hs : c.Shows role s y) :
    c.At role base { i with store := s } q y where
  has := ha.has
  stands := ha.stands.imp id fun ⟨h1, h2, v, hv, hr⟩ => ⟨h1, h2, v, hl.trans hv, hr⟩
  side := let ⟨v, hv, hr⟩ := ha.side; ⟨v, hl.trans hv, hr⟩
  shows := hs
  leaf := ha.leaf

variable {l : Layer}

/-- The wearer's instance after its parameter has been set: its bits spell the value that counts. -/
theorem send_at (h : l.Hosts c .encode base) (hc : c.parameter ≠ isLocalName) {y : Nat}
    (ha : c.At .encode base i q y) (v : Int) :
    ∃ n j, (Machine.ofLayer l).run (i.set c.parameter (.int v)) = (j, .ok n)
      ∧ c.At .encode base j (c.rest v) (c.keep y v) := by
  obtain ⟨b, hb, hs⟩ := ha.shows
  have ha' : c.At .encode base (i.set c.parameter (.int v)) q y := ha.withStore
    (by rw [Store.get?_set, if_neg (Ne.symm hc)])
    ⟨b, hb, fun k hk => by rw [Store.get?_set, if_neg (bitName_ne_parameter _ _), hs k hk]⟩
  have hr : c.Reads .encode (i.set c.parameter (.int v)).store v := by
    show (i.store.set c.parameter (.int v)).get? c.parameter = _
    rw [Store.get?_set, if_pos rfl]
  obtain ⟨n, -, hrun, hat⟩ := h.run_at c.isLocal_not_mem_bits ha' hr
  refine ⟨n, _, hrun, ?_⟩
  have hk : shown y (c.route .encode v q) = c.keep y v := by
    unfold keep
    by_cases hv : 0 ≤ v ∧ v ≤ c.bound
    · rw [shown_route_of_le ha.has hr.readable ha.leaf hv.1 hv.2, if_pos hv]
      omega
    · simp [shown_route_encode ha.has hv, hv]
  rw [← hk]
  exact hat

/-- The other instance after it has run on bits that spell a number. -/
theorem receive_at (h : l.Hosts c .decode base) (hc : c.parameter ≠ isLocalName)
    (ha : c.At .decode base i q y) {b : Nat} (hb : b < 2 ^ c.width) (hs : c.Spells i.store b) :
    ∃ n j z, (Machine.ofLayer l).run i = (j, .ok n) ∧ c.At .decode base j (c.rest b) z
      ∧ c.Spells j.store b := by
  have hr : c.Reads .decode i.store b := ⟨b, rfl, hb, hs⟩
  have hn : isLocalName ∉ c.outputs .decode := fun hm => hc (List.mem_singleton.1 hm).symm
  obtain ⟨n, -, hrun, hat⟩ := h.run_at hn ha hr
  obtain ⟨b', hb', -, hs'⟩ := reads_arrived (b := base) (p := q) hr
  obtain rfl : b = b' := Int.ofNat_inj.1 hb'
  exact ⟨n, _, _, hrun, hat, hs'⟩

end

/-! ## Before the first run -/

/-- With all its bits cleared, an instance keeps the rest of what it has stored. -/
theorem cleared_eq (c : Codec) (i : Instance) :
    ∃ s : Store, c.bits.foldl (fun i n => i.set n (.bool false)) i = { i with store := s }
      ∧ (∀ n, n ∉ c.bits → s.get? n = i.store.get? n) ∧ c.Spells s 0 := by
  obtain ⟨s, he, hs⟩ := setAll_eq c.bits (fun _ => .bool false) i
  refine ⟨s, he, ?_, ?_⟩
  · intro n hn
    simp [hs, hn]
  · intro k hk
    simp [hs, if_pos (mem_bits.2 ⟨k, hk, rfl⟩), Nat.zero_testBit]

/-- An instance that has not run yet, with its side told and no bits set. -/
theorem blank_eq (c : Codec) (isLocal : Bool) (i : Instance) :
    ∃ s : Store, c.channel.blank isLocal i = { i with store := s }
      ∧ s.get? isLocalName = some (.bool isLocal) ∧ c.Spells s 0 := by
  obtain ⟨s, he, hf, h0⟩ := c.cleared_eq (i.set isLocalName (.bool isLocal))
  refine ⟨s, he, ?_, h0⟩
  rw [hf _ c.isLocal_not_mem_bits]
  simp only [Instance.set, Store.get?_set, if_true]

/-- An instance as the round-trip check prepares it. -/
theorem prepare_eq (c : Codec) (hc : c.parameter ≠ isLocalName) (isLocal : Bool) (v : Int)
    (i : Instance) : ∃ s : Store, c.channel.prepare isLocal v i = { i with store := s }
      ∧ s.get? isLocalName = some (.bool isLocal) ∧ s.get? c.parameter = some (.int v)
      ∧ c.Spells s 0 := by
  obtain ⟨s, he, hf, h0⟩ :=
    c.cleared_eq ((i.set isLocalName (.bool isLocal)).set c.parameter (.int v))
  refine ⟨s, he, ?_, ?_, h0⟩
  · rw [hf _ c.isLocal_not_mem_bits]
    simp only [Instance.set, Store.get?_set, if_neg (Ne.symm hc), if_true]
  · rw [hf _ c.parameter_not_mem_bits]
    simp only [Instance.set, Store.get?_set, if_true]

@[simp] theorem isSet_bool (b : Bool) : (ParamValue.bool b).isSet = b := by
  simp [ParamValue.isSet, isZero_bool, Bool.not_not]

/-- Before it runs, an instance stands at the root of its side. -/
theorem at_root {c : Codec} {role : Role} (base : Nat) {i : Instance} {y : Int}
    (hi : i.started = false)
    (hl : i.store.get? isLocalName = some (.bool (decide (role = .encode))))
    (hs : c.Shows role i.store y) : c.At role base i c.root y where
  has := c.has_root
  stands := Or.inr ⟨hi, rfl, _, hl, isSet_bool _⟩
  side := ⟨_, hl, isSet_bool _⟩
  shows := hs
  leaf h := by
    have := c.depth_pos
    rw [root_level] at h
    omega

/-! ## Pairs -/

/-- A pair of layers that host a codec's trees: the wearer's instance shows the value that counts,
the other one has bits to read. -/
structure Linked (c : Codec) (bE bD : Nat) (p : Pair) (y : Nat) : Prop where
  kept : y ≤ c.bound
  encoder : ∃ l : Layer, p.encoder = .ofLayer l ∧ l.Hosts c .encode bE
  decoder : ∃ l : Layer, p.decoder = .ofLayer l ∧ l.Hosts c .decode bD
  sender : ∃ q, c.At .encode bE p.sender q y
  receiver : ∃ q z, c.At .decode bD p.receiver q z
  bits : ∃ b, b < 2 ^ c.width ∧ c.Spells p.receiver.store b

/-- The other instance has run on the bits that it has. -/
def Received (c : Codec) (bD : Nat) (p : Pair) : Prop :=
  ∃ b z, b < 2 ^ c.width ∧ c.Spells p.receiver.store b ∧ c.At .decode bD p.receiver (c.rest b) z

theorem keep_le {c : Codec} {y : Nat} (h : y ≤ c.bound) (v : Int) : c.keep y v ≤ c.bound := by
  unfold keep
  split <;> omega

/-- Bits carried over spell a number again. -/
theorem spells_deliver {c : Codec} {s r : Instance} {y b : Nat} (hs : c.Spells s.store y)
    (hr : c.Spells r.store b) (through : String → Bool) :
    ∃ (t : Store) (b' : Nat), Channel.deliver (c.bits.filter through) s r = { r with store := t }
      ∧ (∀ n, n ∉ c.bits → t.get? n = r.store.get? n)
      ∧ b' < 2 ^ c.width ∧ c.Spells t b'
      ∧ ∀ k, k < c.width → t.get? (bitName c.parameter k) =
          if through (bitName c.parameter k) then s.get? (bitName c.parameter k)
          else r.get? (bitName c.parameter k) := by
  obtain ⟨t, he, ht⟩ :=
    setAll_eq (c.bits.filter through) (fun bit => (s.get? bit).getD (.bool false)) r
  have hbit : ∀ k, k < c.width → t.get? (bitName c.parameter k) =
      if through (bitName c.parameter k) then s.get? (bitName c.parameter k)
      else r.get? (bitName c.parameter k) := by
    intro k hk
    have hm : bitName c.parameter k ∈ c.bits := mem_bits.2 ⟨k, hk, rfl⟩
    have hg : s.get? (bitName c.parameter k) = some (.bool (y.testBit k)) := hs k hk
    rw [ht, hg]
    cases hth : through (bitName c.parameter k) with
    | true => rw [if_pos (List.mem_filter.2 ⟨hm, hth⟩), if_pos rfl]; rfl
    | false =>
      have hno : bitName c.parameter k ∉ c.bits.filter through := by
        intro hc
        rw [(List.mem_filter.1 hc).2] at hth
        cases hth
      rw [if_neg hno, if_neg Bool.false_ne_true]
      rfl
  obtain ⟨b', hb', hf⟩ := exists_spelled (fun k =>
    if through (bitName c.parameter k) then y.testBit k else b.testBit k) c.width
  refine ⟨t, b', he, ?_, hb', ?_, hbit⟩
  · intro n hn
    rw [ht, if_neg fun hc => hn (List.mem_filter.1 hc).1]
  · intro k hk
    rw [hbit k hk, hf k hk]
    cases through (bitName c.parameter k) with
    | true => exact hs k hk
    | false => exact hr k hk

section
variable {c : Codec} {bE bD : Nat} {p : Pair} {y : Nat}

/-- Sending never fails, whatever is sent and whatever gets lost. -/
theorem Linked.send (h : c.Linked bE bD p y) (hc : c.parameter ≠ isLocalName)
    (through : String → Bool) (v : Int) :
    ∃ p', c.channel.sendThrough through v p = .ok p' ∧ c.Linked bE bD p' (c.keep y v)
      ∧ c.Received bD p'
      ∧ ∀ k, k < c.width → p'.receiver.get? (bitName c.parameter k) =
          if through (bitName c.parameter k) then p'.sender.get? (bitName c.parameter k)
          else p.receiver.get? (bitName c.parameter k) := by
  obtain ⟨q, hq⟩ := h.sender
  obtain ⟨r, z, hr⟩ := h.receiver
  obtain ⟨b, hb, hs⟩ := h.bits
  obtain ⟨lE, hlE, hE⟩ := h.encoder
  obtain ⟨lD, hlD, hD⟩ := h.decoder
  obtain ⟨n, s, hsend, hsat⟩ := send_at hE hc hq v
  obtain ⟨y', hy', hsy⟩ := hsat.shows
  obtain ⟨t, b', ht, hframe, hb', hts, hbit⟩ := spells_deliver hsy hs through
  have hr' : c.At .decode bD { p.receiver with store := t } r z := hr.withStore
    (hframe _ c.isLocal_not_mem_bits) ((hframe _ c.parameter_not_mem_bits).trans hr.shows)
  obtain ⟨m, j, z', hrecv, hrat, hjs⟩ := receive_at hD hc hr' hb' hts
  refine ⟨{ p with sender := s, receiver := j }, ?_, ?_, ⟨b', z', hb', hjs, hrat⟩, ?_⟩
  · unfold Channel.sendThrough
    rw [hlE, hlD]
    simp only [channel, hsend, ht, hrecv]
    rfl
  · exact ⟨keep_le h.kept v, h.encoder, h.decoder, ⟨_, hsat⟩, ⟨_, z', hrat⟩, b', hb', hjs⟩
  · intro k hk
    rw [← hbit k hk]
    exact (hjs k hk).trans (hts k hk).symm

/-- When the bits agree, the other instance shows the value that counts. -/
theorem Linked.agree (h : c.Linked bE bD p y) (hr : c.Received bD p)
    (hb : ∀ k, k < c.width →
      p.receiver.get? (bitName c.parameter k) = p.sender.get? (bitName c.parameter k)) :
    p.receiver.get? c.parameter = some (.int y)
      ∧ p.decoder.stateName? p.receiver = some (Place.name .decode ⟨0, y⟩) := by
  obtain ⟨q, hq⟩ := h.sender
  obtain ⟨y', hy', hs⟩ := hq.shows
  obtain rfl : y = y' := Int.ofNat_inj.1 hy'
  obtain ⟨b, z, hlt, hsr, ha⟩ := hr
  have hy2 : y < 2 ^ c.width := Nat.lt_of_le_of_lt h.kept c.bound_lt_two_pow_width
  have hby : b = y := by
    apply Nat.eq_of_testBit_eq
    intro k
    by_cases hk : k < c.width
    · have he := hb k hk
      rw [show p.receiver.get? (bitName c.parameter k) = _ from hsr k hk,
        show p.sender.get? (bitName c.parameter k) = _ from hs k hk] at he
      exact ParamValue.bool.inj (Option.some.inj he)
    · simp [c.testBit_beyond hlt (Nat.le_of_not_lt hk), c.testBit_beyond hy2 (Nat.le_of_not_lt hk)]
  subst hby
  have hrest := rest_of_le h.kept
  rw [hrest] at ha
  have hz : z = b := ha.leaf rfl
  refine ⟨hz ▸ ha.shows, ?_⟩
  obtain ⟨lD, hlD, hD⟩ := h.decoder
  rcases ha.stands with ⟨-, hcur⟩ | ⟨-, hroot, -⟩
  · rw [hlD]
    show (lD.state? p.receiver.current).map LayerState.name = _
    rw [hcur, Layer.state?, hD.state_at _ ha.has, stateAt, if_pos c.depth_pos]
    rfl
  · have hd := c.depth_pos
    rw [← c.root_level, ← hroot] at hd
    exact absurd hd (Nat.lt_irrefl 0)

/-- With all bits carried over, the other instance shows the value that counts at once. -/
theorem Linked.send_whole (h : c.Linked bE bD p y) (hc : c.parameter ≠ isLocalName) (v : Int) :
    ∃ p', c.channel.sendThrough (fun _ => true) v p = .ok p' ∧ c.Linked bE bD p' (c.keep y v)
      ∧ (∀ k, k < c.width →
        p'.receiver.get? (bitName c.parameter k) = p'.sender.get? (bitName c.parameter k))
      ∧ p'.receiver.get? c.parameter = some (.int (c.keep y v)) := by
  obtain ⟨p', hs, h', hr, hb⟩ := h.send hc (fun _ => true) v
  exact ⟨p', hs, h', hb, (h'.agree hr hb).1⟩

end

end Codec

end AvatarBits
