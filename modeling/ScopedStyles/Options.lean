import ScopedStyles.Settings

/-!
# Options

A run of the program is directed by arguments and by settings from a file. Arguments win, and what
neither of them says has a default.
-/

namespace ScopedStyles

/-- The arguments of a run. -/
structure Arguments where
  /-- The stylesheets: paths and patterns. -/
  files : List Text := []
  /-- The folder that urls are relative to. -/
  root : Option Text := none
  /-- The content attribute. -/
  scope : Option Text := none
  /-- The host attribute. -/
  host : Option Text := none
  /-- The identifier of the component. -/
  componentId : Option Text := none
  /-- Leaves selectors as they are. -/
  noScoping : Bool := false
  /-- Scopes in loose mode. -/
  loose : Bool := false
  /-- What the names of the output files end with. -/
  suffix : Option Text := none
  /-- The folder for the output files. -/
  outFolder : Option Text := none
  /-- The file with settings. -/
  settingsFile : Option Text := none
  deriving DecidableEq, Repr

/-- The options of a run. -/
structure Options where
  /-- The stylesheets: paths and patterns. -/
  files : List Text
  /-- The folder that urls are relative to. -/
  root : Text
  /-- The content attribute. -/
  scope : Option Text
  /-- The host attribute. -/
  host : Option Text
  /-- The identifier of the component. -/
  componentId : Option Text
  /-- Whether selectors are scoped. -/
  isScoped : Bool
  /-- How selectors are scoped. -/
  mode : Mode
  /-- What the names of the output files end with. -/
  suffix : Text
  /-- The folder for the output files; without one they are printed. -/
  outFolder : Option Text
  deriving DecidableEq, Repr

namespace Options

/-- The options that arguments and settings make up. -/
def ofArguments (a : Arguments) (s : Settings) : Options where
  files := a.files
  root := a.root.getD ['.']
  scope := a.scope
  host := a.host
  componentId := a.componentId <|> s.componentId
  isScoped := !a.noScoping && s.encapsulation.getD .emulated == .emulated
  mode := .ofStrict (!a.loose && s.strictStyling.getD true)
  suffix := (a.suffix <|> s.suffix).getD ".css".toList
  outFolder := a.outFolder

/-- The scope of a run: the given attributes, where the host attribute is that of the content
unless it is given too, or those of the component. -/
def toScope (o : Options) : Scope :=
  match o.scope, o.componentId with
  | some content, _ => { content, host := o.host.getD content, mode := o.mode }
  | none, some id => Component.scope o.mode id
  | none, none => Component.templateScope o.mode

end Options

end ScopedStyles
