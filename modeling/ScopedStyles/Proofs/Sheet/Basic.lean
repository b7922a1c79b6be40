import ScopedStyles.Stylesheet

/-!
# Sheets

The structure of a stylesheet, as the braces give it. A level is the stylesheet itself, or the body
of an `@media` or `@supports` block of a level. It is a sequence of statements, blocks and closing
braces that close nothing, with a fragment behind the last of them. `Sheet.Reads` says which texts
have which structure, without placeholders and without a queue of blocks: braces are counted.

`Sheet.scope` scopes the preludes of all levels and leaves everything else alone.
-/

namespace ScopedStyles

open Text

/-! ## Braces -/

/-- With `depth` braces open before it, a text closes none that is not open. -/
def StaysOpen (depth : Nat) (t : Text) : Prop :=
  ∀ p : Text, p <+: t → p.count '}' ≤ depth + p.count '{'

/-- A text closes what it opens, and nothing else. -/
def Balanced (t : Text) : Prop := StaysOpen 0 t ∧ t.count '}' = t.count '{'

/-- How a block with the given body ends, where `rest` follows it: with a brace, to which blanks and
a semicolon belong as far as they are there, or never. -/
inductive Closes : (body close rest : Text) → Prop where
  /-- The blanks behind the brace end with a semicolon. -/
  | semicolon {body blanks rest : Text} (hbody : Balanced body)
      (hblanks : ∀ c ∈ blanks, isBlank c) : Closes body ('}' :: (blanks ++ [';'])) rest
  /-- Something else stands behind the blanks. -/
  | brace {body blanks rest : Text} (hbody : Balanced body) (hblanks : ∀ c ∈ blanks, isBlank c)
      (hrest : ∀ c ∈ rest.head?, ¬ isBlank c ∧ c ≠ ';') : Closes body ('}' :: blanks) rest
  /-- The text ends before the block does. -/
  | missing {body : Text} (hbody : StaysOpen 0 body) : Closes body [] []

/-! ## Preludes -/

/-- Neither a semicolon nor a brace is in the text. -/
def IsRun (t : Text) : Prop := ∀ c ∈ t, c ≠ ';' ∧ c ≠ '{' ∧ c ≠ '}'

/-- Not all of the text is blank. -/
def HasInk (t : Text) : Prop := ∃ c ∈ t, ¬ isBlank c

/-- The block with this prelude holds a level. -/
def OpensLevel (prelude : Text) : Prop :=
  "@media".toList <+: trim prelude ∨ "@supports".toList <+: trim prelude

/-- The prelude is that of an at-rule which has no selector. -/
def IsDirective (prelude : Text) : Prop :=
  ['@'] <+: trim prelude ∧ ¬ "@page".toList <+: trim prelude

instance (t : Text) : Decidable (IsRun t) := List.decidableBAll _ t

instance (t : Text) : Decidable (HasInk t) := List.decidableBEx _ t

instance (prelude : Text) : Decidable (OpensLevel prelude) :=
  inferInstanceAs (Decidable (_ ∨ _))

instance (prelude : Text) : Decidable (IsDirective prelude) :=
  inferInstanceAs (Decidable (_ ∧ _))

/-- A prelude with its selector scoped, and the blanks around it. -/
def Scope.prelude (s : Scope) (p : Text) : Text :=
  if IsDirective p then p else p.takeWhile isBlank ++ s.selector (trim p) ++ blanksAtEnd p

/-! ## The structure of a text -/

/-- A level, from left to right, with the levels inside it. -/
inductive Sheet where
  /-- What stands behind everything else. -/
  | fragment (text : Text)
  /-- A statement, without its semicolon. -/
  | statement (prelude : Text) (rest : Sheet)
  /-- A closing brace that closes nothing, and the text before it. -/
  | stray (before : Text) (rest : Sheet)
  /-- A block whose body is no level. -/
  | block (prelude body close : Text) (rest : Sheet)
  /-- A block whose body is a level. -/
  | group (prelude : Text) (body : Sheet) (close : Text) (rest : Sheet)
  deriving DecidableEq, Repr

namespace Sheet

/-- The text of a sheet. -/
def text : Sheet → Text
  | fragment t => t
  | statement p rest => p ++ ';' :: rest.text
  | stray t rest => t ++ '}' :: rest.text
  | block p body close rest => p ++ '{' :: (body ++ (close ++ rest.text))
  | group p body close rest => p ++ '{' :: (body.text ++ (close ++ rest.text))

/-- The sheet is the structure of the text. -/
inductive Reads : Sheet → Text → Prop where
  /-- No rule is left. -/
  | fragment {t : Text} (hrun : IsRun t) : Reads (.fragment t) t
  /-- A statement comes first. -/
  | statement {p t : Text} {rest : Sheet} (hrun : IsRun p) (hrest : Reads rest t) :
      Reads (.statement p rest) (p ++ ';' :: t)
  /-- A closing brace that closes nothing comes first. -/
  | stray {p t : Text} {rest : Sheet} (hrun : IsRun p) (hrest : Reads rest t) :
      Reads (.stray p rest) (p ++ '}' :: t)
  /-- A block that holds no level comes first. -/
  | block {p body close t : Text} {rest : Sheet} (hrun : IsRun p) (hlevel : ¬ OpensLevel p)
      (hclose : Closes body close t) (hrest : Reads rest t) :
      Reads (.block p body close rest) (p ++ '{' :: (body ++ (close ++ t)))
  /-- A block that holds a level comes first. -/
  | group {p body close t : Text} {level rest : Sheet} (hrun : IsRun p) (hlevel : OpensLevel p)
      (hclose : Closes body close t) (hbody : Reads level body) (hrest : Reads rest t) :
      Reads (.group p level close rest) (p ++ '{' :: (body ++ (close ++ t)))

/-- Each block and each statement of each level has a prelude that is not blank. -/
def HasPreludes : Sheet → Prop
  | fragment _ => True
  | statement p rest => HasInk p ∧ rest.HasPreludes
  | stray _ rest => rest.HasPreludes
  | block p _ _ rest => HasInk p ∧ rest.HasPreludes
  | group p body _ rest => HasInk p ∧ body.HasPreludes ∧ rest.HasPreludes

/-- A sheet with the preludes of all its levels scoped. -/
def scope (s : Scope) : Sheet → Sheet
  | fragment t => fragment t
  | statement p rest => statement (s.prelude p) (rest.scope s)
  | stray t rest => stray t (rest.scope s)
  | block p body close rest => block (s.prelude p) body close (rest.scope s)
  | group p body close rest => group p (body.scope s) close (rest.scope s)

theorem Reads.text_eq {sheet : Sheet} {t : Text} (h : sheet.Reads t) : sheet.text = t := by
  induction h with
  | fragment hrun => rfl
  | statement hrun hrest ih => rw [text, ih]
  | stray hrun hrest ih => rw [text, ih]
  | block hrun hlevel hclose hrest ih => rw [text, ih]
  | group hrun hlevel hclose hbody hrest ihbody ih => rw [text, ihbody, ih]

end Sheet

end ScopedStyles
