import ScopedStyles.Text.Basic

/-!
# Blanks

The blank characters are those with the Unicode property `White_Space`, given here as a table of
ranges. They separate the parts of a stylesheet, and `trim` takes them off the ends of a text.
-/

namespace ScopedStyles

/-- The characters with the Unicode property `White_Space`, as first and last code point of each
range. -/
def blankRanges : List (Nat × Nat) :=
  [(0x09, 0x0d), (0x20, 0x20), (0x85, 0x85), (0xa0, 0xa0), (0x1680, 0x1680), (0x2000, 0x200a),
    (0x2028, 0x2029), (0x202f, 0x202f), (0x205f, 0x205f), (0x3000, 0x3000)]

/-- Whether a character is blank. -/
def isBlank (c : Char) : Bool :=
  blankRanges.any fun (first, last) => first ≤ c.toNat && c.toNat ≤ last

namespace Text

/-- A text without the blanks at its beginning. -/
def trimStart (t : Text) : Text := t.dropWhile isBlank

/-- A text without the blanks at its end. -/
def trimEnd (t : Text) : Text := (t.reverse.dropWhile isBlank).reverse

/-- The blanks at the end of a text. -/
def blanksAtEnd (t : Text) : Text := (t.reverse.takeWhile isBlank).reverse

/-- A text without the blanks at its ends. -/
def trim (t : Text) : Text := trimEnd (trimStart t)

theorem length_trimStart_le (t : Text) : (trimStart t).length ≤ t.length := by
  induction t with
  | nil => simp [trimStart]
  | cons c t ih =>
    simp only [trimStart, List.dropWhile_cons] at *
    split
    · simp only [List.length_cons]
      omega
    · simp

/-- A text is what is left of it without the blanks at its end, followed by those blanks. -/
theorem trimEnd_append_blanksAtEnd (t : Text) : trimEnd t ++ blanksAtEnd t = t := by
  rw [trimEnd, blanksAtEnd, ← List.reverse_append, List.takeWhile_append_dropWhile,
    List.reverse_reverse]

end Text

end ScopedStyles
