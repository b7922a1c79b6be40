import ScopedStyles.Comment
import ScopedStyles.Url

/-!
# Imports

An import statement names a stylesheet whose styles belong to those of the importing one. `extract`
takes the statements that can be followed out of a stylesheet; an import of anything else, such as a
stylesheet of another site, is left in place.
-/

namespace ScopedStyles

open Text

/-- An import statement. -/
structure Import where
  /-- The url as it is written. -/
  url : Text
  /-- The whole statement. -/
  statement : Text
  deriving DecidableEq, Repr

namespace Import

/-- Whether a character can stand in a quoted url. -/
def inQuotes (c : Char) : Bool := c != '\'' && c != '"'

/-- Whether a character can stand in a url without quotes. -/
def inBareUrl (c : Char) : Bool := c != ';' && c != ')' && !isBlank c

/-- The url at the head of a text, with or without quotes, and the text behind it. Either kind of
quote ends a quoted url. -/
def splitUrl : Text → Text × Text
  | '\'' :: t => (t.takeWhile inQuotes, t.dropWhile inQuotes)
  | '"' :: t => (t.takeWhile inQuotes, t.dropWhile inQuotes)
  | t => (t.takeWhile inBareUrl, t.dropWhile inBareUrl)

/-- What follows the url of an import statement: it ends with a semicolon, or with the text. -/
def afterStatement (t : Text) : Text := (t.dropWhile (· != ';')).drop 1

/-- What follows `@import` and the blanks behind it, of which there has to be one, and `url(` and
more blanks where they are there. -/
def afterKeyword? (t : Text) : Option Text := do
  let t ← after? .exact "@import".toList t
  if t.takeWhile isBlank = [] then none
  else
    let t := trimStart t
    return trimStart ((after? .exact "url(".toList t).getD t)

/-- The import statement at the head of a text, with the text behind it. -/
def read (t : Text) : Option (Import × Text) := do
  let (url, behind) := splitUrl (← afterKeyword? t)
  let rest := afterStatement behind
  return ({ url, statement := t.take (t.length - rest.length) }, rest)

theorem length_splitUrl_le (t : Text) : (splitUrl t).2.length ≤ t.length := by
  unfold splitUrl
  split
  · rename_i t
    have := (List.dropWhile_suffix (l := t) inQuotes).length_le
    simp only [List.length_cons]
    omega
  · rename_i t
    have := (List.dropWhile_suffix (l := t) inQuotes).length_le
    simp only [List.length_cons]
    omega
  · exact (List.dropWhile_suffix inBareUrl).length_le

theorem length_afterStatement_le (t : Text) : (afterStatement t).length ≤ t.length := by
  have := (List.dropWhile_suffix (l := t) (· != ';')).length_le
  simp only [afterStatement, List.length_drop]
  omega

theorem length_afterKeyword? {t rest : Text} (h : afterKeyword? t = some rest) :
    rest.length < t.length := by
  simp only [afterKeyword?, Option.bind_eq_bind, Option.bind_eq_some_iff] at h
  obtain ⟨u, hu, h⟩ := h
  have := length_after? hu
  split at h
  · simp at h
  · simp only [Option.pure_def, Option.some.injEq] at h
    subst h
    have htrim := length_trimStart_le u
    have hrest : ((after? .exact "url(".toList (trimStart u)).getD (trimStart u)).length ≤
        (trimStart u).length := by
      cases hv : after? .exact "url(".toList (trimStart u) with
      | none => simp
      | some v =>
        have := length_after? hv
        simp only [Option.getD_some]
        omega
    have := length_trimStart_le ((after? .exact "url(".toList (trimStart u)).getD (trimStart u))
    simp at *
    omega

/-- Finds the import statements. -/
def reader : Reader Import where
  read := read
  shorter := by
    intro t i rest h
    simp only [read, Option.bind_eq_bind, Option.bind_eq_some_iff, Option.pure_def,
      Option.some.injEq, Prod.mk.injEq] at h
    obtain ⟨u, hu, -, rfl⟩ := h
    have := length_afterKeyword? hu
    have := length_splitUrl_le u
    have := length_afterStatement_le (splitUrl u).2
    omega

/-- A stylesheet whose imports have been taken out. -/
structure Extracted where
  /-- What is left of the stylesheet. -/
  style : Text
  /-- The imported urls, in order, resolved against the url of the stylesheet. -/
  urls : List Text
  deriving DecidableEq, Repr

/-- Takes the imports that can be followed out of the stylesheet at `base`, and its comments except
those that say where its source is. -/
def extract (base css : Text) : Extracted :=
  let css := Comment.stripUnlessSource css
  { style := reader.substitute (fun i => if Url.isResolvable i.url then [] else i.statement) css
    urls := ((reader.found css).filter fun i => Url.isResolvable i.url).map fun i =>
      Url.resolve base i.url }

end Import

end ScopedStyles
