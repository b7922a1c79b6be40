import ScopedStyles.Stylesheet

/-!
# Components

A component has a name, a module that declares it, and styles of its own. Its scope consists of two
attributes, which are made from an identifier of the component. Where that is not known yet a
placeholder stands for it, and styles are `instantiate`d later.
-/

namespace ScopedStyles

open Text

/-- How the styles of a component are kept to it. -/
inductive Encapsulation where
  /-- Selectors are scoped. -/
  | emulated
  /-- Not at all: the styles apply to the whole document. -/
  | none
  /-- By the browser, so that the styles stay as they are. -/
  | shadowDom
  deriving DecidableEq, Repr

/-- A component with styles. -/
structure Component where
  /-- The name of the component. -/
  name : Text
  /-- The url of the module that declares the component; its style urls are relative to it. -/
  moduleUrl : Text
  /-- How the styles are kept to the component. -/
  encapsulation : Encapsulation := .emulated
  /-- The styles that stand in the module itself. -/
  styles : List Text := []
  /-- The urls of further styles. -/
  styleUrls : List Text := []
  deriving DecidableEq, Repr

namespace Component

/-- What stands for the identifier of a component. -/
def placeholder : Text := "%COMP%".toList

/-- The scope of a component that has no identifier yet. -/
def templateScope (mode : Mode) : Scope where
  content := "_ngcontent-%COMP%".toList
  host := "_nghost-%COMP%".toList
  mode := mode

/-- A text with the identifier of a component in the place of the placeholder. -/
def instantiate (id t : Text) : Text := replace .exact placeholder id t

/-- The scope of the component with the given identifier. -/
def scope (mode : Mode) (id : Text) : Scope :=
  let template := templateScope mode
  { template with
    content := instantiate id template.content
    host := instantiate id template.host }

/-- A stylesheet for the document that belongs to one component. -/
def encapsulate (id : Option Text) (css : Text) : Text :=
  match id with
  | some id => (scope .strict id).encapsulate css
  | none => (templateScope .strict).encapsulate css

end Component

end ScopedStyles
