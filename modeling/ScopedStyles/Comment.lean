import ScopedStyles.Text.Blank
import ScopedStyles.Text.Reader

/-!
# Comments

A comment runs from `/*` to the first `*/` behind it; a `/*` that is never closed is ordinary text.
Comments are removed before a stylesheet is looked at, but two kinds name where a stylesheet came
from: `/*# sourceURL=... */` and `/*# sourceMappingURL=... */`. They can be kept in place
(`stripUnlessSource`), and a source map comment that ends a stylesheet can be asked for
(`sourceMap`).
-/

namespace ScopedStyles.Comment

open Text

/-- What begins a comment. -/
def opening : Text := "/*".toList

/-- What ends a comment. -/
def closing : Text := "*/".toList

/-- The body of the comment at the head of a text, with the text behind the comment. -/
def read (t : Text) : Option (Text × Text) :=
  (after? .exact opening t).bind (cut .exact closing)

/-- Finds comments, each by its body. -/
def reader : Reader Text where
  read := read
  shorter := by
    intro t body rest h
    simp only [read, Option.bind_eq_some_iff] at h
    obtain ⟨inner, hopen, hclose⟩ := h
    have hopen := length_after? hopen
    have hclose := length_cut hclose
    have : opening.length = 2 := by decide
    omega

/-- A comment as it is written. -/
def text (body : Text) : Text := opening ++ body ++ closing

/-- A text without its comments. -/
def strip (t : Text) : Text := reader.substitute (fun _ => []) t

/-! ## Source comments -/

/-- Whether a comment with this body says where the stylesheet or its source map is. -/
def namesSource : Text → Bool
  | '#' :: body =>
    (after? .exact "sourceURL=".toList (trimStart body)).isSome ||
      (after? .exact "sourceMappingURL=".toList (trimStart body)).isSome
  | _ => false

/-- A text without its comments, except those that say where the source is. -/
def stripUnlessSource (t : Text) : Text :=
  reader.substitute (fun body => if namesSource body then text body else []) t

/-- What follows `/*# sourceMappingURL=` at the head of a text. Blanks may stand around the `#`. -/
def afterSourceMapHead? (t : Text) : Option Text := do
  let t ← after? .exact opening t
  let t ← after? .exact ['#'] (trimStart t)
  after? .exact "sourceMappingURL=".toList (trimStart t)

/-- Whether a text begins as a source map comment, has a character where the url belongs, and ends
as a comment does. -/
def isSourceMap (t : Text) : Bool :=
  match afterSourceMapHead? t with
  | some rest => closing.length < rest.length && closing.isSuffixOf rest
  | none => false

/-- The source map comment that ends a stylesheet, blanks at the end apart, and nothing where there
is none. It begins at the last possible place. -/
def sourceMap (css : Text) : Text := (lastSuffix? isSourceMap (trimEnd css)).getD []

end ScopedStyles.Comment
