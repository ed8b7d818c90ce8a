import AvatarBits.Simulation.Machine

/-!
# From one instance to another and back

A codec is tried on a pair of instances, one local and one remote: a value is
set on the local one, its bits are carried over, and the remote one must show
the same value. Every value up to the bound is tried on a fresh pair, and then
all of them on one pair, upward and downward.

* `verify`: the first failure, if there is one.
-/
namespace AvatarBits

/-- What is being carried: a parameter and the names of its bits. -/
structure Channel where
  parameter : String
  bits : List String

/-- A local and a remote instance of the layers that encode and decode. -/
structure Pair where
  encoder : Machine
  decoder : Machine
  sender : Instance
  receiver : Instance

namespace Channel

/-- Prepare an instance: which side it is on, its parameter, and bits that are not set. The remote
parameter starts at `-1`, which no bits spell. -/
def prepare (c : Channel) (isLocal : Bool) (initial : Int) (i : Instance) : Instance :=
  c.bits.foldl (fun i bit => i.set bit (.bool false))
    ((i.set isLocalName (.bool isLocal)).set c.parameter (.int initial))

/-- A fresh pair. -/
def pair (c : Channel) (encoder decoder : Machine) : Pair where
  encoder := encoder
  decoder := decoder
  sender := c.prepare true 0 encoder.start
  receiver := c.prepare false (-1) decoder.start

/-- Carry bits from one instance to another; one that was never written counts as not set. -/
def deliver (bits : List String) (sender receiver : Instance) : Instance :=
  bits.foldl (fun i bit => i.set bit ((sender.get? bit).getD (.bool false))) receiver

/-- Send a value through a pair. -/
def transmit (c : Channel) (value : Int) (p : Pair) : Except PackError Pair := do
  let (sender, sent) := p.encoder.run (p.sender.set c.parameter (.int value))
  let _ ← sent
  let (receiver, received) := p.decoder.run (deliver c.bits sender p.receiver)
  let _ ← received
  let decoded := (receiver.get? c.parameter).bind ParamValue.toInt?
  if decoded = some value then return { p with sender, receiver }
  else throw (.roundTrip c.parameter value decoded)

/-- Send `count` values through a pair, from `value` on in steps of `step`. -/
def transmitRun (c : Channel) (step : Int) :
    (count : Nat) → (value : Int) → Pair → Except PackError Pair
  | 0, _, p => return p
  | count + 1, value, p => do
    transmitRun c step count (value + step) (← c.transmit value p)

/-- Send each of `count` values from `value` on through a pair of its own. -/
def transmitFresh (c : Channel) (fresh : Pair) :
    (count : Nat) → (value : Int) → Except PackError Unit
  | 0, _ => return ()
  | count + 1, value => do
    let _ ← c.transmit value fresh
    transmitFresh c fresh count (value + 1)

end Channel

/-- Try every value from zero to a bound, on fresh pairs and then on one pair, up and down. -/
def verify (encoder decoder : Layer) (parameter : String) (bound : Int) (bits : List String) :
    Except PackError Unit := do
  let c : Channel := ⟨parameter, bits⟩
  let fresh := c.pair (.ofLayer encoder) (.ofLayer decoder)
  let count := (bound + 1).toNat
  c.transmitFresh fresh count 0
  let p ← c.transmitRun 1 count 0 fresh
  let _ ← c.transmitRun (-1) count bound p
  return ()

end AvatarBits
