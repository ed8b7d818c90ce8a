import AvatarBits.Avatar.Basic
import AvatarBits.Codec.Assembly

/-!
# Parameters that packing adds and changes

The bits of a packed parameter become synced expression parameters behind the
existing ones, the packed parameter itself is no longer synced, and the
controller that receives the layers declares what they use and it lacks.

* `declarations`: the parameters that a controller still has to declare.
-/
namespace AvatarBits

/-- The synced booleans that carry bits. -/
def bitParameters (bits : List String) : List Parameter :=
  bits.map fun name => { name, type := .bool, synced := true, default := 0, saved := false }

/-- Stop syncing the packed parameters and append those that carry their bits. -/
def replaceSynced (existing : List Parameter) (packed : List String) (bits : List Parameter) :
    List Parameter :=
  existing.map (fun p => if packed.contains p.name then { p with synced := false } else p) ++ bits

/-- What the layers use: the bits of each packed parameter, then the parameter, and last
`IsLocal`. -/
def wanted (packed : List (String × List String)) : List (String × SlotType) :=
  packed.flatMap (fun (name, bits) => bits.map (·, .bool) ++ [(name, .int)])
    ++ [(isLocalName, .bool)]

/-- Of the wanted parameters, the first of each name that has not been declared. -/
def undeclared : (declared : List String) → List (String × SlotType) → List ControllerParameter
  | _, [] => []
  | declared, (name, type) :: rest =>
    if declared.contains name then undeclared declared rest
    else { name, type, default := 0 } :: undeclared (name :: declared) rest

/-- The parameters that a controller still has to declare. -/
def declarations (c : Controller) (packed : List (String × List String)) :
    List ControllerParameter :=
  undeclared (c.parameters.map ControllerParameter.name) (wanted packed)

end AvatarBits
