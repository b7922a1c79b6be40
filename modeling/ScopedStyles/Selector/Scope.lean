import ScopedStyles.Selector.Compound
import ScopedStyles.Host

/-!
# Scoping selectors

A `Scope` says where a component's styles may reach. In strict mode every compound selector gets the
content attribute, and the host element is matched by the host attribute. In loose mode the scope
is a selector of its own, which goes before every selector and stands for the host element.

A selector that begins with the scope already is left alone, and so is whatever follows a deep
combinator. In strict mode the compound selectors before the one that matches the host element
match its ancestors, which are outside the component: they are left alone too.
-/

namespace ScopedStyles

open Text

/-- How styles are kept inside a component. -/
inductive Mode where
  /-- Every compound selector gets an attribute. -/
  | strict
  /-- Every selector is put behind the scope. -/
  | loose
  deriving DecidableEq, Repr

/-- Where a component's styles may reach. -/
structure Scope where
  /-- The attribute of every element of the component; in loose mode, the selector of its host
  element. -/
  content : Text
  /-- The attribute of the host element. -/
  host : Text
  /-- How selectors are scoped. -/
  mode : Mode := .strict
  deriving DecidableEq, Repr

namespace Selector

/-! ## Selectors that need no scoping -/

/-- Whether a selector that begins with the scope may go on with this character. -/
def isBoundary (c : Char) : Bool := isBlank c || ">~+[.,\x7b:".toList.contains c

/-- Whether a text begins with `scope` as a whole, not as a part of a longer name. -/
def beginsWith (scope t : Text) : Bool :=
  match after? .exact scope t with
  | some [] => true
  | some (c :: _) => isBoundary c
  | none => false

/-- Whether a selector is scoped already: one of its lines begins with the scope. -/
def isScoped (scope t : Text) : Bool := (fromLineStarts t).any (beginsWith scope)

/-! ## Attributes -/

/-- The value of the `[is=x]` at the head of a text, with the text behind it. -/
def isValue? (t : Text) : Option (Text × Text) :=
  (after? .exact "[is=".toList t).bind (cut .exact [']'])

theorem length_isValue? {t value rest : Text} (h : isValue? t = some (value, rest)) :
    rest.length < t.length := by
  simp only [isValue?, Option.bind_eq_some_iff] at h
  obtain ⟨inner, hinner, hcut⟩ := h
  have := length_after? hinner
  have := length_cut hcut
  simp only [List.length_cons] at this
  omega

/-- Finds `[is=x]`, by its value. -/
def isReader : Reader Text where
  read := isValue?
  shorter := length_isValue?

/-- A scope with every `[is=x]` replaced by its value. -/
def unwrapIs (scope : Text) : Text := isReader.substitute id scope

end Selector

namespace Scope

open Selector

/-- What strict mode adds to a compound selector. -/
def contentAttribute (s : Scope) : Text := '[' :: unwrapIs s.content ++ [']']

/-- What stands for the host element. -/
def hostText (s : Scope) : Text :=
  match s.mode with
  | .strict => '[' :: s.host ++ [']']
  | .loose => s.content

/-- A selector with its anchor written out, and each marker of `:host` that is left. -/
def writeHost (s : Scope) (t : Text) : Text :=
  replace .anyCase Host.marker (s.hostText ++ [' ']) (replaceFirst .exact Host.anchor s.hostText t)

/-! ## Strict mode -/

/-- A compound selector, scoped in strict mode. The one that matches the host element has the host
attribute instead; a marker of `:host` beside the content attribute says nothing more. -/
def compound (s : Scope) (t : Text) : Text :=
  if trim t = [] then []
  else if includes .exact Host.anchor t then s.writeHost t
  else
    match replace .anyCase Host.marker [] t with
    | [] => trim t
    | bare => insertAttribute s.contentAttribute bare

/-- The links of a chain, scoped in strict mode. The host element is `reached` where the chain does
not name it, and from the first compound selector on that begins with the anchor or that follows
one that contains it. -/
def links (s : Scope) : (reached : Bool) → List (Text × Char) → Text
  | _, [] => []
  | reached, (t, combinator) :: rest =>
    let here := reached || Host.anchor.isPrefixOf t
    (if here then s.compound (trim t) else trim t) ++ [' ', combinator, ' '] ++
      s.links (here || includes .exact Host.anchor t) rest

/-- A complex selector, scoped in strict mode. -/
def strictly (s : Scope) (t : Text) : Text :=
  s.links (!includes .exact Host.anchor t) (chain t).links ++ s.compound (chain t).last

/-! ## Loose mode -/

/-- A complex selector, scoped in loose mode. -/
def loosely (s : Scope) (t : Text) : Text :=
  if includes .anyCase Host.marker t then s.writeHost t else s.content ++ [' '] ++ t

/-! ## Selectors -/

/-- A complex selector without deep combinators, scoped unless it is already. -/
def shallow (s : Scope) (t : Text) : Text :=
  if isScoped s.content t then t
  else
    match s.mode with
    | .strict => s.strictly t
    | .loose => s.loosely t

/-- One of the alternatives of a selector list, scoped up to its first deep combinator. Deep
combinators become descendant combinators. -/
def alternative (s : Scope) (t : Text) : Text :=
  let (own, foreign) := deepReader.between (trim t)
  [' '].intercalate (s.shallow own :: foreign)

/-- A selector list, each alternative scoped on its own. -/
def selector (s : Scope) (t : Text) : Text :=
  ", ".toList.intercalate ((split ',' t).map s.alternative)

end Scope

end ScopedStyles
