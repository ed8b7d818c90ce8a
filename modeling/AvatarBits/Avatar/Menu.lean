import AvatarBits.Number.Binary

/-!
# Expression menus

A menu is a list of pages with a root. Controls name pages by position, so a
page may hang in several places, links may run in circles, and a link may lead
nowhere.

* `Menu.Reaches`: the pages that can be opened from the root.
-/
namespace AvatarBits

/-- Kind of a menu entry. -/
inductive ControlType where
  | button
  | toggle
  | subMenu
  | twoAxisPuppet
  | fourAxisPuppet
  | radialPuppet
  deriving DecidableEq, Repr

/-- A menu entry: the parameter that it sets, the value that it sets it to, and the page that it
opens. -/
structure Control where
  name : String := ""
  type : ControlType := .button
  parameter : Option String := none
  value : Single := 0
  subMenu : Option Nat := none
  deriving DecidableEq

/-- The page that a control opens: only an entry of kind `subMenu` opens one. -/
def Control.opens? (c : Control) : Option Nat := if c.type = .subMenu then c.subMenu else none

/-- A page of the menu. -/
structure MenuPage where
  name : String := ""
  controls : List Control := []
  deriving DecidableEq

/-- Positions of the pages that a page opens, in order. -/
def MenuPage.links (p : MenuPage) : List Nat := p.controls.filterMap Control.opens?

/-- The whole menu. -/
structure Menu where
  root : Nat := 0
  pages : List MenuPage := []
  deriving DecidableEq

/-- Page `i` can be opened from the root. -/
inductive Menu.Reaches (m : Menu) : Nat → MenuPage → Prop where
  | root {page : MenuPage} : m.pages[m.root]? = some page → m.Reaches m.root page
  | step {i j : Nat} {page next : MenuPage} :
    m.Reaches i page → j ∈ page.links → m.pages[j]? = some next → m.Reaches j next

end AvatarBits
