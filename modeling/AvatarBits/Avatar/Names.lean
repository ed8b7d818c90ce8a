import AvatarBits.Avatar.Basic

/-!
# Words for kinds

The words that an avatar description uses for kinds of parameters, controls,
conditions and layers, each list in the order in which a complaint names them.
-/
namespace AvatarBits

/-- Kinds of expression parameters. -/
def ValueType.words : List (String × ValueType) :=
  [("Int", .int), ("Float", .float), ("Bool", .bool)]

/-- Word for a kind of expression parameter. -/
def ValueType.word : ValueType → String
  | .int => "Int"
  | .float => "Float"
  | .bool => "Bool"

theorem ValueType.lookup_word (t : ValueType) : words.lookup t.word = some t := by cases t <;> rfl

/-- Kinds of controls. -/
def ControlType.words : List (String × ControlType) :=
  [("Button", .button), ("Toggle", .toggle), ("SubMenu", .subMenu),
    ("TwoAxisPuppet", .twoAxisPuppet), ("FourAxisPuppet", .fourAxisPuppet),
    ("RadialPuppet", .radialPuppet)]

/-- Word for a kind of control. -/
def ControlType.word : ControlType → String
  | .button => "Button"
  | .toggle => "Toggle"
  | .subMenu => "SubMenu"
  | .twoAxisPuppet => "TwoAxisPuppet"
  | .fourAxisPuppet => "FourAxisPuppet"
  | .radialPuppet => "RadialPuppet"

theorem ControlType.lookup_word (t : ControlType) : words.lookup t.word = some t := by
  cases t <;> rfl

/-- Modes of conditions. -/
def ConditionMode.words : List (String × ConditionMode) :=
  [("If", .isSet), ("IfNot", .notSet), ("Greater", .greater), ("Less", .less), ("Equals", .equals),
    ("NotEqual", .notEqual)]

/-- Word for a mode of conditions. -/
def ConditionMode.word : ConditionMode → String
  | .isSet => "If"
  | .notSet => "IfNot"
  | .greater => "Greater"
  | .less => "Less"
  | .equals => "Equals"
  | .notEqual => "NotEqual"

theorem ConditionMode.lookup_word (m : ConditionMode) : words.lookup m.word = some m := by
  cases m <;> rfl

/-- Kinds of controller parameters. -/
def SlotType.words : List (String × SlotType) :=
  [("Float", .float), ("Int", .int), ("Bool", .bool), ("Trigger", .trigger)]

/-- Word for a kind of controller parameter. -/
def SlotType.word : SlotType → String
  | .float => "Float"
  | .int => "Int"
  | .bool => "Bool"
  | .trigger => "Trigger"

theorem SlotType.lookup_word (t : SlotType) : words.lookup t.word = some t := by cases t <;> rfl

/-- Kinds of playable layers. -/
def LayerKind.words : List (String × LayerKind) :=
  [("Base", .base), ("Additive", .additive), ("Gesture", .gesture), ("Action", .action),
    ("FX", .fx)]

/-- Word for a kind of playable layer. -/
def LayerKind.word : LayerKind → String
  | .base => "Base"
  | .additive => "Additive"
  | .gesture => "Gesture"
  | .action => "Action"
  | .fx => "FX"

theorem LayerKind.lookup_word (k : LayerKind) : words.lookup k.word = some k := by cases k <;> rfl

/-- Kinds of driver actions; the blanks hold the place of what an action of the kind has. -/
def DriverAction.words : List (String × DriverAction) :=
  [("Set", .set "" 0), ("Add", .add "" 0), ("Random", .random "" 0 0 0),
    ("Copy", .copy "" "" false {})]

/-- Word for a behaviour that drives parameters. -/
def Behaviour.driverWord : String := "ParameterDriver"

/-- Word for every other behaviour. -/
def Behaviour.otherWord : String := "Other"

end AvatarBits
