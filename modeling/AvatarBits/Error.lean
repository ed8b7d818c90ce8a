/-!
# Failures

What can go wrong once a description is read: a bound that cannot be packed, an
avatar without a place for layers, and runs of layers that do not end as they
should.

* `PackError.message`: the wording.
-/
namespace AvatarBits

/-- A failure of generating, applying or running layers. -/
inductive PackError where
  | boundOutOfRange (parameter : String) (bound max : Int)
  | missingFx
  | unknownState (layer : String) (state : Nat)
  | unsettled (layer : String) (steps : Nat)
  | unsupportedAction (action parameter state : String)
  | roundTrip (parameter : String) (expected : Int) (actual : Option Int)
  deriving DecidableEq

/-- A decoded value, if there is one. -/
def decodedText : Option Int → String
  | none => "None"
  | some i => s!"Some({i})"

/-- The wording of a failure. -/
def PackError.message : PackError → String
  | .boundOutOfRange parameter bound max =>
    s!"Bound {bound} of parameter '{parameter}' is outside the packable range 0..={max}"
  | .missingFx => "Avatar has no FX controller to receive the generated layers"
  | .unknownState layer state => s!"Layer '{layer}' has no state with id {state}"
  | .unsettled layer steps => s!"Layer '{layer}' did not settle within {steps} transitions"
  | .unsupportedAction action parameter state =>
    s!"Cannot simulate {action} driver on '{parameter}' in state '{state}'"
  | .roundTrip parameter expected actual =>
    s!"Round trip failed for '{parameter}': encoded {expected}, decoded {decodedText actual}"

end AvatarBits
