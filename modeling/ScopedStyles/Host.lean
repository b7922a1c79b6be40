import ScopedStyles.Text.Blank
import ScopedStyles.Text.Reader

/-!
# Host selectors

Inside a component `:host` stands for the element that carries it, `:host(s)` for that element if it
matches `s`, and `:host-context(s)` for it if it or one of its ancestors does. `normalize` writes
all three with one marker, the *anchor*, which stands for the host element within a compound
selector:

* `:host(a, b) t` becomes `⟨anchor⟩a t,⟨anchor⟩b t`;
* `:host-context(a) t` becomes `⟨anchor⟩a t, a ⟨anchor⟩ t`.

The combinators that pierce the boundary of a component without leaving it (`::shadow`, `::content`
and their named forms) become plain descendant combinators. `>>>` and `/deep/` stay: they end the
part of a selector that is scoped.
-/

namespace ScopedStyles.Host

open Text

/-! ## Markers -/

/-- Marks a use of `:host`. -/
def marker : Text := "-shadowcsshost".toList

/-- Marks a use of `:host-context`. -/
def contextMarker : Text := "-shadowcsscontext".toList

/-- What turns the marker of `:host` into the anchor. -/
def anchorSuffix : Text := "-no-combinator".toList

/-- Marks the compound selector that matches the host element. -/
def anchor : Text := marker ++ anchorSuffix

/-- A stylesheet with its uses of `:host` and `:host-context` marked. The longer word goes first, so
that it is not taken for the shorter one. -/
def mark (css : Text) : Text :=
  replace .anyCase ":host".toList marker
    (replace .anyCase ":host-context".toList contextMarker css)

/-! ## Uses of a marker -/

/-- One use of a marker: its argument in parentheses, if any, and the rest of the selector. -/
structure Use where
  /-- The text between the parentheses. -/
  argument : Option Text
  /-- What follows, up to the next comma or opening brace. -/
  tail : Text
  deriving DecidableEq, Repr

/-- An argument behind its opening parenthesis, with the text behind its closing one. It may hold
parentheses of its own (`nested`), but only one level of them. -/
def argument? : (nested : Bool) → Text → Option (Text × Text)
  | _, [] => none
  | true, '(' :: _ => none
  | false, '(' :: t => (argument? true t).map fun (a, rest) => ('(' :: a, rest)
  | true, ')' :: t => (argument? false t).map fun (a, rest) => (')' :: a, rest)
  | false, ')' :: t => some ([], t)
  | nested, c :: t => (argument? nested t).map fun (a, rest) => (c :: a, rest)

/-- The argument in parentheses at the head of a text, if there is one, with the text behind it. -/
def splitArgument : Text → Option Text × Text
  | '(' :: t =>
    match argument? false t with
    | some (a, rest) => (some a, rest)
    | none => (none, '(' :: t)
  | t => (none, t)

/-- Whether a character belongs to the selector it stands in. -/
def inSelector (c : Char) : Bool := c != ',' && c != '{'

/-- The use of `word` at the head of a text, with the text behind it. -/
def use? (word t : Text) : Option (Use × Text) :=
  (after? .anyCase word t).map fun t =>
    let (argument, t) := splitArgument t
    ({ argument, tail := t.takeWhile inSelector }, t.dropWhile inSelector)

theorem length_argument? {nested : Bool} {t a rest : Text}
    (h : argument? nested t = some (a, rest)) : rest.length < t.length := by
  fun_induction argument? nested t generalizing a with
  | case1 => simp at h
  | case2 => simp at h
  | case5 =>
    simp only [Option.some.injEq, Prod.mk.injEq] at h
    simp [h]
  | case3 _ ih | case4 _ ih | case6 _ _ _ _ _ _ _ ih =>
    simp only [Option.map_eq_some_iff, Prod.mk.injEq, Prod.exists] at h
    obtain ⟨b, r, hr, -, rfl⟩ := h
    have := ih hr
    simp only [List.length_cons]
    omega

theorem length_splitArgument_le (t : Text) : (splitArgument t).2.length ≤ t.length := by
  unfold splitArgument
  split
  · split
    · rename_i h
      have := length_argument? h
      simp only [List.length_cons]
      omega
    · simp
  · simp

theorem length_use? {word t rest : Text} {u : Use} (hword : word ≠ [])
    (h : use? word t = some (u, rest)) : rest.length < t.length := by
  simp only [use?, Option.map_eq_some_iff, Prod.mk.injEq] at h
  obtain ⟨s, hs, -, rfl⟩ := h
  have := length_after? hs
  have := List.length_pos_iff.mpr hword
  have := length_splitArgument_le s
  have := (List.dropWhile_suffix (l := (splitArgument s).2) inSelector).length_le
  omega

/-- Finds the uses of `:host` in a marked stylesheet. -/
def hostReader : Reader Use where
  read := use? marker
  shorter := length_use? (by decide)

/-- Finds the uses of `:host-context` in a marked stylesheet. -/
def contextReader : Reader Use where
  read := use? contextMarker
  shorter := length_use? (by decide)

/-! ## Writing with the anchor -/

/-- A selector without its first marker of `:host`, which may have become an anchor already. -/
def dropMarker (s : Text) : Text :=
  match cut .anyCase marker s with
  | some (before, rest) => before ++ (after? .anyCase anchorSuffix rest).getD rest
  | none => s

/-- The host element, if it matches `s`. -/
def anchored (s tail : Text) : Text := anchor ++ dropMarker s ++ tail

/-- The host element, if it or one of its ancestors matches `s`. A selector that names the host
itself is not about ancestors. -/
def anchoredWithin (s tail : Text) : Text :=
  if includes .anyCase marker s then anchored s tail
  else anchor ++ s ++ tail ++ ", ".toList ++ s ++ [' '] ++ anchor ++ tail

/-- A use of a marker, written with the anchor: `alternative` writes each of the selectors that the
commas of its argument separate. -/
def Use.expand (alternative : Text → Text → Text) (u : Use) : Text :=
  match u.argument with
  | some a => [','].intercalate ((split ',' a).map fun s => alternative (trim s) u.tail)
  | none => anchor ++ u.tail

/-- A stylesheet with every combinator that stays inside the component written as a space. -/
def flattenCombinators (css : Text) : Text :=
  ["::shadow", "::content", "/shadow-deep/", "/shadow/"].foldl
    (fun css word => replace .exact word.toList [' '] css) css

/-- A stylesheet whose host selectors are written with the anchor, and whose combinators stay inside
the component or leave it for good. -/
def normalize (css : Text) : Text :=
  flattenCombinators
    (contextReader.substitute (Use.expand anchoredWithin)
      (hostReader.substitute (Use.expand anchored) (mark css)))

end ScopedStyles.Host
