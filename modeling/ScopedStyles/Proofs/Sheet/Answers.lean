import ScopedStyles.Proofs.Sheet.Scope

/-!
# Rules and answers

To change the rules of a text is to ask once for each of them, from left to right, and to write what
is answered in its place (`Rule.mapM_eq_withRules`). What is asked for is a rule with its trimmed
prelude and the text between its braces, and nothing that is answered changes what is asked for
next: neither braces in an answer nor a placeholder are read again.
-/

namespace ScopedStyles

open Text

namespace Sheet

/-- The rules at the top level, from left to right: each has its trimmed prelude, and a block has
the text between its braces. -/
def rules : Sheet → List Rule
  | fragment _ => []
  | statement p rest => ⟨trim p, []⟩ :: rest.rules
  | stray _ rest => rest.rules
  | block p body _ rest => ⟨trim p, body⟩ :: rest.rules
  | group p body _ rest => ⟨trim p, body.text⟩ :: rest.rules

/-- The text of a sheet with other rules at the top level, in order. The selector of each stands
between the blanks of the prelude, its content where the block was, or before the semicolon of the
statement. Rules for which no other is left stay. -/
def withRules : Sheet → List Rule → Text
  | fragment t, _ => t
  | statement p rest, [] => p ++ ';' :: rest.withRules []
  | statement p rest, r :: rs =>
    p.takeWhile isBlank ++ r.selector ++ blanksAtEnd p ++ r.content ++ ';' :: rest.withRules rs
  | stray t rest, rs => t ++ '}' :: rest.withRules rs
  | block p body close rest, [] => p ++ '{' :: (body ++ (close ++ rest.withRules []))
  | block p _ close rest, r :: rs =>
    p.takeWhile isBlank ++ r.selector ++ blanksAtEnd p ++
      '{' :: (r.content ++ (close ++ rest.withRules rs))
  | group p body close rest, [] => p ++ '{' :: (body.text ++ (close ++ rest.withRules []))
  | group p _ close rest, r :: rs =>
    p.takeWhile isBlank ++ r.selector ++ blanksAtEnd p ++
      '{' :: (r.content ++ (close ++ rest.withRules rs))

/-- With its own rules in their places a sheet has the text it has. -/
theorem withRules_rules {sheet : Sheet} (h : sheet.NamesRules) :
    sheet.withRules sheet.rules = sheet.text := by
  induction sheet with
  | fragment t => rfl
  | statement p rest ih =>
    rw [rules, withRules, text, ih h.2, List.append_nil, h.1.blanks_append_trim]
  | stray t rest ih => rw [rules, withRules, text, ih h]
  | block p body close rest ih => rw [rules, withRules, text, ih h.2, h.1.blanks_append_trim]
  | group p body close rest ihbody ih =>
    rw [rules, withRules, text, ih h.2, h.1.blanks_append_trim]

end Sheet

namespace Rule

variable {m : Type → Type} [Monad m] [LawfulMonad m]

/-- The items of a text, written one after the other, with the rules changed by `f`. -/
def writeM (f : Rule → m Rule) (items : List Item) : m Text := do
  let written ← items.mapM fun
    | .copied text => pure text
    | .rule slot r => return slot.write (← f r)
  return written.flatten

omit [LawfulMonad m] in
theorem mapM_eq_writeM (f : Rule → m Rule) (t : Text) : mapM f t = writeM f (items t) := rfl

theorem writeM_nil (f : Rule → m Rule) : writeM f [] = pure [] := by
  simp [writeM]

theorem writeM_copied (f : Rule → m Rule) (text : Text) (items : List Item) :
    writeM f (.copied text :: items) = (text ++ ·) <$> writeM f items := by
  simp [writeM]

/-- The first rule is asked for before the others are written. -/
theorem writeM_rule (f : Rule → m Rule) (slot : Slot) (r : Rule) (items : List Item) :
    writeM f (.rule slot r :: items) =
      f r >>= fun answer => (slot.write answer ++ ·) <$> writeM f items := by
  simp [writeM]

/-- A rule in front of others is written with its answer, and they are written with theirs. -/
theorem writeM_rule_eq (f : Rule → m Rule) {slot : Slot} {r : Rule} {items : List Item}
    {rules : List Rule} {put behind : List Rule → Text}
    (hbehind : writeM f items = behind <$> rules.mapM f)
    (hput : ∀ answer answers, put (answer :: answers) = slot.write answer ++ behind answers) :
    writeM f (.rule slot r :: items) = put <$> (r :: rules).mapM f := by
  rw [writeM_rule, hbehind, List.mapM_cons, map_bind]
  congr 1
  funext answer
  simp [hput]

/-- The rules of a sheet are asked for one after the other, and their answers are written. -/
theorem writeM_items (f : Rule → m Rule) (sheet : Sheet) :
    writeM f sheet.items = sheet.withRules <$> sheet.rules.mapM f := by
  induction sheet with
  | fragment t =>
    by_cases hnil : t = []
    · simp [Sheet.items, Sheet.rules, Sheet.withRules, hnil, writeM_nil]
    · simp [Sheet.items, Sheet.rules, Sheet.withRules, hnil, writeM_copied, writeM_nil]
  | stray t rest ih => simp [Sheet.items, Sheet.rules, Sheet.withRules, writeM_copied, ih]
  | statement p rest ih =>
    refine writeM_rule_eq f ih fun answer answers => ?_
    simp [Sheet.withRules, Slot.write]
  | block p body close rest ih =>
    refine writeM_rule_eq f ih fun answer answers => ?_
    simp [Sheet.withRules, Slot.write]
  | group p body close rest ihbody ih =>
    refine writeM_rule_eq f ih fun answer answers => ?_
    simp [Sheet.withRules, Slot.write]

/-- Every text has exactly one structure. Where no prelude at its top level is blank, changing the
rules asks for each of them once and in order, and writes the answers in their places. Everything
else stays: with the rules as they are their places make up the text. -/
theorem mapM_eq_withRules (f : Rule → m Rule) (t : Text) :
    (∃! sheet : Sheet, sheet.Reads t) ∧
      ∀ sheet : Sheet, sheet.Reads t → sheet.NamesRules →
        mapM f t = sheet.withRules <$> sheet.rules.mapM f ∧ sheet.withRules sheet.rules = t := by
  refine ⟨Sheet.existsUnique_reads t, fun sheet h hnames => ⟨?_, ?_⟩⟩
  · rw [mapM_eq_writeM, h.items_eq hnames, writeM_items]
  · rw [Sheet.withRules_rules hnames, h.text_eq]

/-- A callback that keeps what it is asked for and answers with braces and a placeholder: a block in
a block, a brace too many, a statement, and a block that is open at the end. -/
theorem mapM_eq_withRules_open :
    let f : Rule → StateM (List (Text × Text)) Rule := fun r => do
      modify (· ++ [(r.selector, r.content)])
      return ⟨"\x7d\x7b".toList, Block.placeholder⟩
    (mapM f " a \x7bb \x7bc\x7d\x7d ; \x7d @import x ;d \x7b e".toList).run [] =
      (" \x7d\x7b \x7b%BLOCK%\x7d ; \x7d \x7d\x7b %BLOCK%;\x7d\x7b \x7b%BLOCK%".toList,
        [("a", "b \x7bc\x7d"), ("@import x", ""), ("d", " e")].map fun asked =>
          (asked.1.toList, asked.2.toList)) := by
  intro f
  have hread : Sheet.read " a \x7bb \x7bc\x7d\x7d ; \x7d @import x ;d \x7b e".toList =
      .block " a ".toList "b \x7bc\x7d".toList "\x7d ;".toList
        (.stray " ".toList (.statement " @import x ".toList
          (.block "d ".toList " e".toList [] (.fragment [])))) := by cbv
  have hreads := Sheet.reads_read " a \x7bb \x7bc\x7d\x7d ; \x7d @import x ;d \x7b e".toList
  rw [hread] at hreads
  rw [((mapM_eq_withRules f _).2 _ hreads (by decide)).1]
  rfl

end Rule

end ScopedStyles
