import AvatarBits.Avatar.Controller
import AvatarBits.Avatar.Menu
import AvatarBits.Avatar.Parameter

/-!
# Avatars

An avatar's expression parameters, its menu and its playable layers, each with
a controller or without. Generated layers go into the controller of the first
layer of kind `fx`.

Results:
* `Avatar.fx?_onFx`: changing that controller changes what `fx?` gives.
-/
namespace AvatarBits

/-- Kind of a playable layer. -/
inductive LayerKind where
  | base
  | additive
  | gesture
  | action
  | fx
  deriving DecidableEq, Repr

/-- A playable layer. -/
structure PlayableLayer where
  kind : LayerKind
  controller : Option Controller := none
  deriving DecidableEq

/-- An avatar. The expression parameters may be missing altogether. -/
structure Avatar where
  parameters : Option (List Parameter) := none
  menu : Option Menu := none
  layers : List PlayableLayer := []
  deriving DecidableEq

/-- The controller of the first layer of kind `fx`. -/
def firstFx? (layers : List PlayableLayer) : Option Controller :=
  (layers.find? fun l => l.kind = .fx).bind PlayableLayer.controller

/-- Change the controller of the first layer of kind `fx`. -/
def onFirstFx (change : Controller → Controller) : List PlayableLayer → List PlayableLayer
  | [] => []
  | l :: ls =>
    if l.kind = .fx then { l with controller := l.controller.map change } :: ls
    else l :: onFirstFx change ls

theorem firstFx?_onFirstFx (change : Controller → Controller) (ls : List PlayableLayer) :
    firstFx? (onFirstFx change ls) = (firstFx? ls).map change := by
  induction ls with
  | nil => rfl
  | cons l ls ih =>
    by_cases h : l.kind = .fx
    · simp [onFirstFx, firstFx?, h]
    · simpa [onFirstFx, firstFx?, h] using ih

namespace Avatar

/-- Every controller, in the order of the layers. -/
def controllers (a : Avatar) : List Controller := a.layers.filterMap PlayableLayer.controller

/-- The controller that receives generated layers. -/
def fx? (a : Avatar) : Option Controller := firstFx? a.layers

/-- Change the controller that receives generated layers. -/
def onFx (a : Avatar) (change : Controller → Controller) : Avatar :=
  { a with layers := onFirstFx change a.layers }

theorem fx?_onFx (a : Avatar) (change : Controller → Controller) :
    (a.onFx change).fx? = a.fx?.map change :=
  firstFx?_onFirstFx change a.layers

end Avatar

end AvatarBits
