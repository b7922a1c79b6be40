/-!
# Text

Stylesheets, selectors, urls and file names are all texts, and a text is the list of its
characters: every rule of this library reads a text from its left end, by recursion on that list.

This file has what the rules are written with: a literal at the head of a text (`after?`), its
first occurrence (`cut`), and the pieces between separators (`split`). A literal is compared either
exactly or with the case of letters ignored (`Letters`). The main statements say that nothing is
lost: `cut_exact` puts a text together again from the two sides of an exact cut, and
`intercalate_split` does so for the pieces of a split.
-/

namespace ScopedStyles

/-- A text is the list of its characters. -/
abbrev Text := List Char

namespace Text

/-! ## Comparing letters -/

/-- The lower case form of an ASCII letter. The long s and the Kelvin sign are the only characters
outside ASCII that count as ASCII letters when case is ignored. -/
def foldCase (c : Char) : Char :=
  if c = '\u017f' then 's' else if c = '\u212a' then 'k' else c.toLower

/-- How the characters of a literal are compared with those of a text. -/
inductive Letters where
  /-- Every character stands for itself. -/
  | exact
  /-- Upper and lower case letters are the same. -/
  | anyCase
  deriving DecidableEq, Repr

/-- Whether two characters count as the same one. -/
def Letters.agree : Letters → Char → Char → Bool
  | .exact, a, b => a == b
  | .anyCase, a, b => foldCase a == foldCase b

/-! ## Literals -/

/-- What follows `literal` in a text that begins with it. -/
def after? (m : Letters) : (literal t : Text) → Option Text
  | [], t => some t
  | _ :: _, [] => none
  | a :: literal, c :: t => if m.agree a c then after? m literal t else none

/-- What precedes and what follows the first occurrence of `literal`. -/
def cut (m : Letters) (literal : Text) : Text → Option (Text × Text)
  | [] => if literal = [] then some ([], []) else none
  | c :: t =>
    match after? m literal (c :: t) with
    | some rest => some ([], rest)
    | none => (cut m literal t).map fun (before, rest) => (c :: before, rest)

/-- Whether `literal` occurs in a text. -/
def includes (m : Letters) (literal t : Text) : Bool := (cut m literal t).isSome

/-- A text without the first occurrence of `literal`. -/
def removeFirst (m : Letters) (literal t : Text) : Text :=
  match cut m literal t with
  | some (before, rest) => before ++ rest
  | none => t

/-- A text with the first occurrence of `literal` replaced. -/
def replaceFirst (m : Letters) (literal new t : Text) : Text :=
  match cut m literal t with
  | some (before, rest) => before ++ new ++ rest
  | none => t

/-! ## Pieces -/

/-- The pieces of a text between the occurrences of `separator`; there is always one. -/
def split (separator : Char) : Text → List Text
  | [] => [[]]
  | c :: t =>
    if c = separator then [] :: split separator t
    else
      match split separator t with
      | [] => [[c]]
      | piece :: pieces => (c :: piece) :: pieces

/-- The shortest nonempty end of a text that satisfies `p`. -/
def lastSuffix? (p : Text → Bool) : Text → Option Text
  | [] => none
  | c :: t =>
    match lastSuffix? p t with
    | some found => some found
    | none => if p (c :: t) then some (c :: t) else none

/-- The lines of a text, each together with everything after it. -/
def fromLineStarts (t : Text) : List Text := t :: afterBreaks t
where
  /-- What follows each line break. -/
  afterBreaks : Text → List Text
    | [] => []
    | c :: t => if c = '\n' then t :: afterBreaks t else afterBreaks t

/-! ## Order -/

/-- Whether a text comes before another one, or is the same, in the order of their characters. -/
def precedes : Text → Text → Bool
  | [], _ => true
  | _ :: _, [] => false
  | a :: s, b :: t => a < b || (a == b && precedes s t)

/-! ## Laws -/

theorem length_after? {m : Letters} {literal t rest : Text} (h : after? m literal t = some rest) :
    t.length = literal.length + rest.length := by
  induction literal generalizing t with
  | nil => simp [after?] at h; simp [h]
  | cons a literal ih =>
    cases t with
    | nil => simp [after?] at h
    | cons c t =>
      simp only [after?] at h
      split at h
      · have := ih h
        simp only [List.length_cons]
        omega
      · simp at h

/-- An exact literal and what follows it make up the text. -/
theorem after?_exact {literal t rest : Text} :
    after? .exact literal t = some rest ↔ t = literal ++ rest := by
  induction literal generalizing t with
  | nil => simp [after?]
  | cons a literal ih =>
    cases t with
    | nil => simp [after?]
    | cons c t =>
      simp only [after?, Letters.agree, beq_iff_eq, List.cons_append, List.cons.injEq]
      split
      · rename_i h
        simp [h, ih]
      · rename_i h
        simp [Ne.symm h]

theorem length_cut {m : Letters} {literal t before rest : Text}
    (h : cut m literal t = some (before, rest)) :
    t.length = before.length + literal.length + rest.length := by
  induction t generalizing before with
  | nil =>
    simp only [cut] at h
    split at h
    · simp_all
    · simp at h
  | cons c t ih =>
    simp only [cut] at h
    split at h
    · rename_i r hr
      simp only [Option.some.injEq, Prod.mk.injEq] at h
      obtain ⟨rfl, rfl⟩ := h
      simp [length_after? hr]
    · simp only [Option.map_eq_some_iff, Prod.mk.injEq, Prod.exists] at h
      obtain ⟨b, r, hcut, rfl, rfl⟩ := h
      have := ih hcut
      simp only [List.length_cons]
      omega

/-- The two sides of an exact cut and the literal between them make up the text. -/
theorem cut_exact {literal t before rest : Text}
    (h : cut .exact literal t = some (before, rest)) : t = before ++ literal ++ rest := by
  induction t generalizing before with
  | nil =>
    simp only [cut] at h
    split at h
    · simp_all
    · simp at h
  | cons c t ih =>
    simp only [cut] at h
    split at h
    · rename_i r hr
      simp only [Option.some.injEq, Prod.mk.injEq] at h
      obtain ⟨rfl, rfl⟩ := h
      simpa using after?_exact.mp hr
    · simp only [Option.map_eq_some_iff, Prod.mk.injEq, Prod.exists] at h
      obtain ⟨b, r, hcut, rfl, rfl⟩ := h
      simp [ih hcut]

@[simp] theorem split_ne_nil (separator : Char) (t : Text) : split separator t ≠ [] := by
  cases t with
  | nil => simp [split]
  | cons c t =>
    simp only [split]
    split
    · simp
    · split <;> simp

/-- The pieces of a split, joined by the separator, make up the text. -/
theorem intercalate_split (separator : Char) (t : Text) :
    [separator].intercalate (split separator t) = t := by
  induction t with
  | nil => simp [split, List.intercalate]
  | cons c t ih =>
    simp only [split]
    split
    · rename_i h
      cases hs : split separator t with
      | nil => exact absurd hs (split_ne_nil separator t)
      | cons piece pieces =>
        rw [hs] at ih
        simpa [List.intercalate, h] using ih
    · cases hs : split separator t with
      | nil => exact absurd hs (split_ne_nil separator t)
      | cons piece pieces =>
        rw [hs] at ih
        rw [← ih]
        cases pieces <;> simp [List.intercalate]

end Text

end ScopedStyles
