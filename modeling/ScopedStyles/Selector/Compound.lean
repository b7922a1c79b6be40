import ScopedStyles.Text.Blank
import ScopedStyles.Text.Reader

/-!
# Compound selectors

A complex selector is a chain of compound selectors with combinators between them. Only a space
stands for the descendant combinator, and blanks behind a combinator belong to it. The deep
combinators `>>>` and `/deep/` leave the component: what follows them is somebody else's.
-/

namespace ScopedStyles.Selector

open Text

/-! ## Combinators -/

/-- Whether a character is a combinator. -/
def isCombinator (c : Char) : Bool := c == ' ' || c == '>' || c == '+' || c == '~'

/-- A complex selector cut at its combinators. -/
structure Chain where
  /-- Each compound selector that a combinator follows, with that combinator. -/
  links : List (Text × Char)
  /-- What follows the last combinator. -/
  last : Text
  deriving DecidableEq, Repr

/-- Cuts a complex selector at its combinators. -/
def chain (t : Text) : Chain :=
  match _h : t.dropWhile (!isCombinator ·) with
  | [] => { links := [], last := t }
  | c :: rest =>
    let tail := chain (trimStart rest)
    { tail with links := (t.takeWhile (!isCombinator ·), c) :: tail.links }
termination_by t.length
decreasing_by
  have hlen := (List.dropWhile_suffix (l := t) (!isCombinator ·)).length_le
  have := length_trimStart_le rest
  rw [_h] at hlen
  simp only [List.length_cons] at hlen
  omega

/-! ## Deep combinators -/

/-- What follows the deep combinator at the head of a text. -/
def afterDeep? (t : Text) : Option Text :=
  match after? .exact ">>>".toList t with
  | some rest => some rest
  | none => after? .exact "/deep/".toList t

theorem length_afterDeep? {t rest : Text} (h : afterDeep? t = some rest) :
    rest.length < t.length := by
  unfold afterDeep? at h
  split at h
  · rename_i hrest
    have := length_after? hrest
    simp_all
  · have := length_after? h
    simp at this
    omega

/-- Finds the deep combinators. -/
def deepReader : Reader Unit where
  read t := (afterDeep? t).map ((), ·)
  shorter := by
    intro t a rest h
    simp only [Option.map_eq_some_iff, Prod.mk.injEq] at h
    obtain ⟨r, hr, -, rfl⟩ := h
    exact length_afterDeep? hr

/-! ## Where attributes go -/

/-- A compound selector with `added` put into it: before its first colon, where its pseudo-classes
and pseudo-elements begin, or at its end. -/
def insertAttribute (added compound : Text) : Text :=
  compound.takeWhile (· != ':') ++ added ++ compound.dropWhile (· != ':')

end ScopedStyles.Selector
