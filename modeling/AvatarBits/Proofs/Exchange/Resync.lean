import AvatarBits.Proofs.Exchange.Session

/-!
# A pair that lost bits finds together again

The wearer's parameter may take any values, within the bound or not, and of the
bits any may get lost on any step. Nothing of that stops either instance, and as
soon as the bits agree again the other instance shows the last value that could
be encoded.

Results:
* `Codec.linked_apart`: the pair before anything is sent.
* `Codec.linked_sendAll`: what every sequence of steps keeps.
* `Codec.lossy_exchange`: the exchange, from a pair that has not run yet.
-/
namespace AvatarBits

namespace Codec

/-- The value that counts after some steps: the last one within the bound, or zero. -/
def lastKept (c : Codec) (steps : List (Int × (String → Bool))) : Nat :=
  steps.foldl (fun y s => c.keep y s.1) 0

/-- A pair before anything is sent. No bits are set, and the other instance's parameter is `-1`. -/
def apart (c : Codec) (layout : LayerLayout) (wd : Bool) : Pair :=
  let encoder := Machine.ofLayer (c.encoder layout wd)
  let decoder := Machine.ofLayer (c.decoder layout wd)
  { encoder, decoder
    sender := c.channel.blank true encoder.start
    receiver := (c.channel.blank false decoder.start).set c.parameter (.int (-1)) }

theorem linked_apart (c : Codec) (hc : c.parameter ≠ isLocalName) (layout : LayerLayout)
    (wd : Bool) : ∃ bE bD, c.Linked bE bD (c.apart layout wd) 0 := by
  obtain ⟨bE, hE⟩ := c.encoder_hosts layout wd
  obtain ⟨bD, hD⟩ := c.decoder_hosts layout wd
  obtain ⟨s, hs, hsl, hss⟩ := c.blank_eq true (Machine.ofLayer (c.encoder layout wd)).start
  obtain ⟨r, hr, hrl, hrs⟩ := c.blank_eq false (Machine.ofLayer (c.decoder layout wd)).start
  have hset : c.Spells (r.set c.parameter (.int (-1))) 0 := by
    intro k hk
    simp [Store.get?_set, if_neg (bitName_ne_parameter _ _), hrs k hk]
  refine ⟨bE, bD, Nat.zero_le _, ⟨_, rfl, hE⟩, ⟨_, rfl, hD⟩, ⟨c.root, ?_⟩, ⟨c.root, -1, ?_⟩,
    0, Nat.two_pow_pos _, ?_⟩
  · rw [apart, hs]
    exact at_root bE rfl hsl ⟨0, rfl, hss⟩
  · rw [apart, hr]
    refine at_root bD rfl ?_ ?_
    · rw [Instance.set, Store.get?_set, if_neg (Ne.symm hc), hrl]
      rfl
    · show ((r.set c.parameter (.int (-1))).get? c.parameter) = _
      rw [Store.get?_set, if_pos rfl]
  · rw [apart, hr]
    exact hset

/-- Every sequence of steps succeeds and keeps a pair linked; after the last one the other instance
has run on the bits that it has. -/
theorem linked_sendAll {c : Codec} (hc : c.parameter ≠ isLocalName) {bE bD : Nat}
    (steps : List (Int × (String → Bool))) {p : Pair} {y : Nat} (h : c.Linked bE bD p y) :
    ∃ p', c.channel.sendAll steps p = .ok p'
      ∧ c.Linked bE bD p' (steps.foldl (fun y s => c.keep y s.1) y)
      ∧ (steps ≠ [] → c.Received bD p') := by
  induction steps generalizing p y with
  | nil => exact ⟨p, rfl, h, fun hne => absurd rfl hne⟩
  | cons s steps ih =>
    obtain ⟨p₁, hs, h₁, hr₁, -⟩ := h.send hc s.2 s.1
    obtain ⟨p', hp', h', hr'⟩ := ih h₁
    refine ⟨p', ?_, h', fun _ => ?_⟩
    · rw [← hp', Channel.sendAll, List.foldlM_cons, hs]
      rfl
    · cases steps with
      | nil =>
        cases hp'
        exact hr₁
      | cons => exact hr' (List.cons_ne_nil _ _)

/-- **Lost bits do no lasting harm.** Whatever values the wearer's parameter takes and whichever
bits get lost, every run succeeds and the wearer's bits are the digits of the last value within the
bound; whenever the other instance has the same bits, it shows that value and stands at its leaf. -/
theorem lossy_exchange (c : Codec) (hc : c.parameter ≠ isLocalName) (layout : LayerLayout)
    (wd : Bool) (steps : List (Int × (String → Bool))) :
    ∃ p, c.channel.sendAll steps (c.apart layout wd) = .ok p
      ∧ (∀ k, k < c.width →
        p.sender.get? (bitName c.parameter k) = some (.bool ((c.lastKept steps).testBit k)))
      ∧ (steps ≠ [] →
        (∀ k, k < c.width →
          p.receiver.get? (bitName c.parameter k) = p.sender.get? (bitName c.parameter k)) →
        p.receiver.get? c.parameter = some (.int (c.lastKept steps))
          ∧ p.decoder.stateName? p.receiver = some s!"decode_{c.lastKept steps}") := by
  obtain ⟨bE, bD, h₀⟩ := c.linked_apart hc layout wd
  obtain ⟨p, hp, h, hr⟩ := linked_sendAll hc steps h₀
  obtain ⟨q, hq⟩ := h.sender
  obtain ⟨y, hy, hs⟩ := hq.shows
  obtain rfl : c.lastKept steps = y := Int.ofNat_inj.1 hy
  exact ⟨p, hp, hs, fun hne hb => h.agree (hr hne) hb⟩

/-- After a step on which nothing got lost the bits agree. -/
theorem bits_agree_of_whole {c : Codec} (hc : c.parameter ≠ isLocalName) {layout : LayerLayout}
    {wd : Bool} {steps : List (Int × (String → Bool))} {v : Int} {p : Pair}
    (hp : c.channel.sendAll (steps ++ [(v, fun _ => true)]) (c.apart layout wd) = .ok p) (k : Nat)
    (hk : k < c.width) :
    p.receiver.get? (bitName c.parameter k) = p.sender.get? (bitName c.parameter k) := by
  obtain ⟨bE, bD, h₀⟩ := c.linked_apart hc layout wd
  obtain ⟨p₁, h₁, hl, -⟩ := linked_sendAll hc steps h₀
  obtain ⟨p₂, h₂, -, hb, -⟩ := hl.send_whole hc v
  have he : c.channel.sendAll (steps ++ [(v, fun _ => true)]) (c.apart layout wd) = .ok p₂ := by
    rw [Channel.sendAll, List.foldlM_append, ← Channel.sendAll, h₁]
    show c.channel.sendAll [(v, fun _ => true)] p₁ = _
    rw [Channel.sendAll, List.foldlM_cons, h₂]
    rfl
  rw [he] at hp
  cases hp
  exact hb k hk

/-- A codec to look at. -/
def pose : Codec := ⟨"Pose", 5, by decide⟩

/-- A value beyond the bound, then one of which no bit gets through, then one that arrives. -/
theorem lossy_exchange_pose : ∃ p,
    pose.channel.sendAll ([(9, fun _ => true), (4, fun _ => false)] ++ [(3, fun _ => true)])
        (pose.apart .split true) = .ok p
      ∧ p.receiver.get? "Pose" = some (.int 3)
      ∧ p.decoder.stateName? p.receiver = some "decode_3" := by
  have hc : pose.parameter ≠ isLocalName := by decide
  obtain ⟨p, hp, -, h⟩ := lossy_exchange pose hc .split true
    ([(9, fun _ => true), (4, fun _ => false)] ++ [(3, fun _ => true)])
  obtain ⟨h1, h2⟩ := h (List.cons_ne_nil _ _) (bits_agree_of_whole hc hp)
  exact ⟨p, hp, h1, h2⟩

end Codec

end AvatarBits
