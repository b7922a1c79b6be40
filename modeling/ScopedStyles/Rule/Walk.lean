import ScopedStyles.Rule.Block
import ScopedStyles.Text.Blank

/-!
# Rules

The rules at the top level of a stylesheet, or of the body of a rule, are its blocks and its
statements, each with the prelude before it. `items` cuts a text into its rules and what is copied
as it stands; `map` and `mapM` change each rule and leave everything else alone.

A rule is found in the flattened text (`Block.flatten`), and the blocks are handed out to the rules
in order. A block whose opening brace has no prelude at all is no rule and takes no block.
-/

namespace ScopedStyles

open Text

/-- A rule: a prelude with a block, or a statement. -/
structure Rule where
  /-- The selector or the at-rule before the block, or the whole statement. -/
  selector : Text
  /-- The text between the braces; a statement has none. -/
  content : Text
  deriving DecidableEq, Repr

namespace Rule

/-! ## Rules in a flattened text -/

/-- What a rule is written between: its selector stands behind `before`, its content behind
`between`, and `after` ends it. -/
structure Slot where
  /-- The blanks before the selector. -/
  before : Text
  /-- The blanks behind the selector and, for a block, the opening brace. -/
  between : Text
  /-- The closing brace of a block, with blanks and a semicolon behind it; the semicolon of a
  statement. -/
  after : Text
  deriving DecidableEq, Repr

/-- A rule written in its slot. -/
def Slot.write (s : Slot) (r : Rule) : Text :=
  s.before ++ r.selector ++ s.between ++ r.content ++ s.after

/-- A part of a flattened text. -/
inductive Part where
  /-- Text that belongs to no rule. -/
  | copied (text : Text)
  /-- A statement. -/
  | statement (slot : Slot) (selector : Text)
  /-- A rule with a block. -/
  | block (slot : Slot) (selector : Text)
  deriving DecidableEq, Repr

/-- Whether a character can stand in a prelude. -/
def inPrelude (c : Char) : Bool := c != ';' && c != '{' && c != '}'

/-- The selector in a run of prelude characters, with the blanks before and behind it. The selector
of a run of blanks is its last character. -/
def splitRun (run : Text) : Text × Text × Text :=
  match trimStart run with
  | [] => (run.dropLast, run.getLast?.toList, [])
  | rest => (run.takeWhile isBlank, trimEnd rest, blanksAtEnd rest)

/-- The closing brace at the head of a text, if there is one, with the text behind it. -/
def splitBrace : Text → Text × Text
  | '}' :: t => (['}'], t)
  | t => ([], t)

/-- The blanks at the head of a text and a semicolon behind them, if there is one, with the text
behind. -/
def splitSemicolon (t : Text) : Text × Text :=
  match t.dropWhile isBlank with
  | ';' :: rest => (t.takeWhile isBlank ++ [';'], rest)
  | rest => (t.takeWhile isBlank, rest)

/-- The end of a rule behind its block: a closing brace, blanks and a semicolon, as far as they are
there, with the text behind. -/
def splitEnd (t : Text) : Text × Text :=
  let (brace, t) := splitBrace t
  let (blanks, t) := splitSemicolon t
  (brace ++ blanks, t)

theorem splitBrace_append (t : Text) : (splitBrace t).1 ++ (splitBrace t).2 = t := by
  unfold splitBrace
  split <;> rfl

theorem splitSemicolon_append (t : Text) : (splitSemicolon t).1 ++ (splitSemicolon t).2 = t := by
  have key : t.takeWhile isBlank ++ t.dropWhile isBlank = t := List.takeWhile_append_dropWhile
  unfold splitSemicolon
  split
  · rename_i rest hrest
    rw [hrest] at key
    simpa using key
  · exact key

/-- The end of a rule and what follows it make up the text. -/
theorem splitEnd_append (t : Text) : (splitEnd t).1 ++ (splitEnd t).2 = t := by
  simp only [splitEnd, List.append_assoc, splitSemicolon_append, splitBrace_append]

theorem length_splitEnd_le (t : Text) : (splitEnd t).2.length ≤ t.length := by
  have := congrArg List.length (splitEnd_append t)
  simp only [List.length_append] at this
  omega

/-- The parts of a flattened text. A run of prelude characters is the prelude of a rule if a
semicolon or the placeholder of a block follows it. -/
def parts (t : Text) : List Part :=
  let run := t.takeWhile inPrelude
  let (before, selector, behind) := splitRun run
  match _hrest : t.dropWhile inPrelude with
  | [] => if run = [] then [] else [.copied run]
  | c :: rest =>
    if run = [] then .copied [c] :: parts rest
    else if c = ';' then .statement ⟨before, behind, [';']⟩ selector :: parts rest
    else
      match _hblock : after? .exact ('{' :: Block.placeholder) (c :: rest) with
      | none => .copied (run ++ [c]) :: parts rest
      | some tail =>
        .block ⟨before, behind ++ ['{'], (splitEnd tail).1⟩ selector :: parts (splitEnd tail).2
termination_by t.length
decreasing_by
  all_goals
    have hlen := (List.dropWhile_suffix (l := t) inPrelude).length_le
    rw [_hrest] at hlen
    simp only [List.length_cons] at hlen
  · omega
  · omega
  · omega
  · have := length_after? _hblock
    have := length_splitEnd_le tail
    simp only [List.length_cons] at *
    omega

/-! ## Rules in a text -/

/-- A part of a text. -/
inductive Item where
  /-- Text that belongs to no rule. -/
  | copied (text : Text)
  /-- A rule in its slot. -/
  | rule (slot : Slot) (rule : Rule)
  deriving DecidableEq, Repr

/-- The parts of a flattened text with the blocks put back, each in the first rule that still lacks
one. -/
def fill : List Part → List Text → List Item
  | [], _ => []
  | .copied text :: ps, blocks => .copied text :: fill ps blocks
  | .statement slot selector :: ps, blocks => .rule slot ⟨selector, []⟩ :: fill ps blocks
  | .block slot selector :: ps, [] => .rule slot ⟨selector, []⟩ :: fill ps []
  | .block slot selector :: ps, b :: blocks => .rule slot ⟨selector, b⟩ :: fill ps blocks

/-- The rules of a text and what stands between them. -/
def items (t : Text) : List Item :=
  fill (parts (Block.flatten t).skeleton) (Block.flatten t).blocks

/-- A rule has a block that was handed out, or none. -/
theorem content_of_mem_fill {ps : List Part} {blocks : List Text} {slot : Slot} {r : Rule}
    (h : .rule slot r ∈ fill ps blocks) : r.content = [] ∨ r.content ∈ blocks := by
  fun_induction fill ps blocks with
  | case1 => simp at h
  | case2 _ _ _ ih => exact ih (by simpa using h)
  | case3 _ _ _ _ ih =>
    rcases List.mem_cons.mp h with heq | h
    · cases heq
      exact .inl rfl
    · exact ih h
  | case4 _ _ _ ih =>
    rcases List.mem_cons.mp h with heq | h
    · cases heq
      exact .inl rfl
    · exact ih h
  | case5 _ _ _ b _ ih =>
    rcases List.mem_cons.mp h with heq | h
    · cases heq
      exact .inr List.mem_cons_self
    · exact (ih h).imp_right (List.mem_cons_of_mem b)

@[simp] theorem items_nil : items [] = [] := by
  simp [items, Block.flatten, Reader.substitute, Reader.found, parts, fill]

/-- The content of a rule is shorter than the text the rule stands in. -/
theorem length_content_lt {t : Text} {slot : Slot} {r : Rule} (h : .rule slot r ∈ items t) :
    r.content.length < t.length := by
  rcases content_of_mem_fill h with hnil | hmem
  · cases t with
    | nil => simp at h
    | cons c t => simp [hnil]
  · exact Block.length_lt_of_mem_blocks hmem

/-- An item with its rule changed by `f`. -/
def Item.write (f : Rule → Rule) : Item → Text
  | .copied text => text
  | .rule slot r => slot.write (f r)

/-- A text with every rule changed by `f`. -/
def map (f : Rule → Rule) (t : Text) : Text := (items t).flatMap (Item.write f)

/-- A text with every rule changed by `f`, which is run once per rule, in order. -/
def mapM {m : Type → Type} [Monad m] (f : Rule → m Rule) (t : Text) : m Text := do
  let written ← (items t).mapM fun
    | .copied text => pure text
    | .rule slot r => return slot.write (← f r)
  return written.flatten

end Rule

end ScopedStyles
