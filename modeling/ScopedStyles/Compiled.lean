import ScopedStyles.Component
import ScopedStyles.Import

/-!
# Compiled styles

The styles of a component, or a stylesheet, are compiled into a list of styles and a list of
dependencies: the stylesheets whose styles are to be added. A stylesheet is compiled in two forms,
scoped and as written, and a cache has to tell them apart.
-/

namespace ScopedStyles

open Text

/-- A stylesheet that still has to be loaded. -/
structure Dependency where
  /-- The url of the stylesheet. -/
  url : Text
  /-- Whether its selectors are to be scoped. -/
  isScoped : Bool
  deriving DecidableEq, Repr

/-- What is added to the url of a stylesheet in its scoped form. -/
def scopedSuffix : Text := ".shim".toList

/-- The name under which a compiled stylesheet is cached. -/
def Dependency.key (d : Dependency) : Text := if d.isScoped then d.url ++ scopedSuffix else d.url

/-- Compiled styles. -/
structure Compiled where
  /-- The name of the variable that holds the styles in generated code. -/
  variableName : Text
  /-- The url of the module or stylesheet that was compiled. -/
  url : Text
  /-- The styles, in order. -/
  styles : List Text
  /-- The stylesheets whose styles follow, in order. -/
  dependencies : List Dependency
  deriving DecidableEq, Repr

namespace Compiled

/-- The url of the module that holds a compiled stylesheet. -/
def moduleUrl (url : Text) (isScoped : Bool) (suffix : Text) : Text :=
  Dependency.key { url, isScoped } ++ suffix

/-- Compiles styles, which are scoped or left as they are. -/
def ofStyles (s : Scope) (isScoped : Bool) (variableName url : Text) (styles urls : List Text) :
    Compiled where
  variableName := variableName
  url := url
  styles := if isScoped then styles.map s.encapsulate else styles
  dependencies := urls.map fun url => { url, isScoped }

/-- Compiles a stylesheet. Its imports become dependencies in the same form. -/
def ofStylesheet (s : Scope) (isScoped : Bool) (url css : Text) : Compiled :=
  let extracted := Import.extract url css
  ofStyles s isScoped "styles".toList url [extracted.style] extracted.urls

/-- Compiles the styles of a component, which are scoped if its encapsulation is emulated. Its style
urls become dependencies, except those that lead nowhere. -/
def ofComponent (s : Scope) (c : Component) : Compiled :=
  ofStyles s (c.encapsulation = .emulated) ("styles_".toList ++ c.name) c.moduleUrl c.styles
    ((c.styleUrls.filter Url.isResolvable).map (Url.resolve c.moduleUrl))

end Compiled

end ScopedStyles
