import ScopedStyles.Proofs.Sheet.Blocks

/-!
# Rules that are left as they are

A text whose rules are left as they are is the text again, if each block at its top level has a
prelude of its own (`Rule.map_id_eq_self`): a single blank is enough, but blanks and a semicolon
behind a block belong to that block. A block without a prelude is no rule. It gets no content back
and shows its placeholder, whatever is done to the rules (`Sheet.Reads.placeholder_isInfix`), and
the contents of the blocks behind it move up by one.
-/

namespace ScopedStyles

open Text

variable {p t : Text}

namespace Sheet

/-- Each block at the top level has a prelude, be it a blank one. -/
def NamesBlocks : Sheet → Prop
  | fragment _ => True
  | statement _ rest => rest.NamesBlocks
  | stray _ rest => rest.NamesBlocks
  | block p _ _ rest => p ≠ [] ∧ rest.NamesBlocks
  | group p _ _ rest => p ≠ [] ∧ rest.NamesBlocks

instance decidableNamesBlocks : (sheet : Sheet) → Decidable sheet.NamesBlocks
  | fragment _ => isTrue trivial
  | statement _ rest => rest.decidableNamesBlocks
  | stray _ rest => rest.decidableNamesBlocks
  | block p _ _ rest | group p _ _ rest =>
    have := rest.decidableNamesBlocks
    inferInstanceAs (Decidable (p ≠ [] ∧ rest.NamesBlocks))

end Sheet

namespace Rule

/-! ## Rules with a blank prelude -/

theorem splitRun_append (p : Text) :
    (splitRun p).1 ++ ((splitRun p).2.1 ++ (splitRun p).2.2) = p := by
  unfold splitRun
  split
  · cases hlast : p.getLast? with
    | none => simp [List.getLast?_eq_none_iff.mp hlast]
    | some c =>
      obtain ⟨q, rfl⟩ := List.getLast?_eq_some_iff.mp hlast
      simp
  · rw [trimEnd_append_blanksAtEnd, trimStart, List.takeWhile_append_dropWhile]

/-- A rule that is written back in its slot is its prelude and its content. -/
theorem write_splitRun (p opening content close : Text) :
    Slot.write ⟨(splitRun p).1, (splitRun p).2.2 ++ opening, close⟩ ⟨(splitRun p).2.1, content⟩ =
      p ++ (opening ++ (content ++ close)) := by
  conv => rhs; rw [← splitRun_append p]
  simp [Slot.write]

theorem parts_append_semicolon (hp : IsRun p) (hne : p ≠ []) (t : Text) :
    parts (p ++ ';' :: t) =
      .statement ⟨(splitRun p).1, (splitRun p).2.2, [';']⟩ (splitRun p).2.1 :: parts t := by
  rw [parts_append hp (by decide), if_neg hne, if_pos rfl]

theorem parts_cons {c : Char} (hc : ¬ inPrelude c) (t : Text) :
    parts (c :: t) = .copied [c] :: parts t := by
  have hnil : IsRun [] := by simp [IsRun]
  have h := @parts_append [] t c hnil hc
  rwa [if_pos rfl, List.nil_append] at h

/-- The placeholder of a block, behind a prelude. -/
theorem parts_append_block (hp : IsRun p) (hne : p ≠ []) {body close : Text}
    (hclose : Closes body close t) :
    parts (p ++ '{' :: (Block.placeholder ++ (close ++ t))) =
      .block ⟨(splitRun p).1, (splitRun p).2.2 ++ ['{'], close⟩ (splitRun p).2.1 :: parts t := by
  have hafter : after? .exact ('{' :: Block.placeholder)
      ('{' :: (Block.placeholder ++ (close ++ t))) = some (close ++ t) := after?_exact.mpr rfl
  rw [parts_append hp (by decide), if_neg hne, if_neg (by decide), hafter]
  simp only [splitEnd_of_closes hclose]

/-! ## Rules from left to right -/

theorem items_semicolon_cons (t : Text) : items (';' :: t) = .copied [';'] :: items t := by
  rw [items, Block.flatten_cons (by decide), parts_cons (by decide), fill, items]

theorem items_append_semicolon (hp : IsRun p) (hne : p ≠ []) (t : Text) :
    items (p ++ ';' :: t) =
      .rule ⟨(splitRun p).1, (splitRun p).2.2, [';']⟩ ⟨(splitRun p).2.1, []⟩ :: items t := by
  rw [items, Block.flatten_append (fun c hc => (hp c hc).2.1), Block.flatten_cons (by decide),
    parts_append_semicolon hp hne, fill, items]

/-- A block with a prelude gets its own content back. -/
theorem items_append_block (hp : IsRun p) (hne : p ≠ []) {body close : Text}
    (hclose : Closes body close t) :
    items (p ++ '{' :: (body ++ (close ++ t))) =
      .rule ⟨(splitRun p).1, (splitRun p).2.2 ++ ['{'], close⟩ ⟨(splitRun p).2.1, body⟩ ::
        items t := by
  rw [items, Block.flatten_append (fun c hc => (hp c hc).2.1), hclose.flatten_eq,
    parts_append_block hp hne hclose.flatten, fill, items]

theorem map_id_append_block (hp : IsRun p) (hne : p ≠ []) {body close : Text}
    (hclose : Closes body close t) :
    map id (p ++ '{' :: (body ++ (close ++ t))) = p ++ '{' :: (body ++ (close ++ map id t)) := by
  rw [map, items_append_block hp hne hclose, List.flatMap_cons, ← map, Item.write, id,
    write_splitRun]
  simp

end Rule

namespace Sheet

/-- Where each block has a prelude, rules that are left as they are make up the text. -/
theorem Reads.map_id {sheet : Sheet} (h : sheet.Reads t) (hnames : sheet.NamesBlocks) :
    Rule.map id t = t := by
  induction h with
  | fragment hrun =>
    rw [Rule.map, Rule.items_run hrun]
    split
    · rename_i hnil
      rw [hnil, List.flatMap_nil]
    · rw [List.flatMap_singleton, Rule.Item.write]
  | @statement p t rest hrun hrest ih =>
    have hbehind := ih hnames
    rw [Rule.map] at hbehind ⊢
    by_cases hne : p = []
    · rw [hne, List.nil_append, Rule.items_semicolon_cons, List.flatMap_cons, hbehind]
      rfl
    · have hwrite := Rule.write_splitRun p [] [] [';']
      rw [List.append_nil] at hwrite
      rw [Rule.items_append_semicolon hrun hne, List.flatMap_cons, hbehind, Rule.Item.write, id,
        hwrite]
      simp
  | stray hrun hrest ih =>
    have hbehind := ih hnames
    rw [Rule.map] at hbehind ⊢
    rw [Rule.items_close hrun, List.flatMap_cons, hbehind, Rule.Item.write]
    simp
  | block hrun hlevel hclose hrest ih =>
    rw [Rule.map_id_append_block hrun hnames.1 hclose, ih hnames.2]
  | group hrun hlevel hclose hbody hrest ihbody ih =>
    rw [Rule.map_id_append_block hrun hnames.1 hclose, ih hnames.2]

end Sheet

/-! ## Blocks without a prelude -/

namespace Rule

/-- A placeholder without a prelude is copied. -/
theorem placeholder_isInfix_writeParts (f : Rule → Rule) {body close : Text}
    (hclose : Closes body close t) (blocks : List Text) :
    '{' :: Block.placeholder <:+:
      writeParts f (parts ('{' :: (Block.placeholder ++ (close ++ t)))) blocks := by
  have hplaceholder : IsRun Block.placeholder := by decide
  have hend : close ++ t = [] ∨ ∃ u, close ++ t = '}' :: u := by
    cases hclose with
    | semicolon hbody hblanks => exact .inr ⟨_, rfl⟩
    | brace hbody hblanks hrest => exact .inr ⟨_, rfl⟩
    | missing hbody => exact .inl rfl
  rw [parts_cons (by decide), writeParts_copied]
  obtain hnil | ⟨u, hu⟩ := hend
  · rw [hnil, List.append_nil, writeParts_run f hplaceholder]
    exact List.infix_refl _
  · rw [hu, parts_close hplaceholder, writeParts_copied]
    exact ⟨[], '}' :: writeParts f (parts u) blocks, by simp⟩

theorem placeholder_isInfix_append_block (f : Rule → Rule) (hp : IsRun p) {body close : Text}
    (hclose : Closes body close t)
    (hrest : p ≠ [] → ∀ blocks, '{' :: Block.placeholder <:+:
      writeParts f (parts (Block.flatten t).skeleton) blocks) (blocks : List Text) :
    '{' :: Block.placeholder <:+: writeParts f
      (parts (Block.flatten (p ++ '{' :: (body ++ (close ++ t)))).skeleton) blocks := by
  rw [Block.flatten_append (fun c hc => (hp c hc).2.1), hclose.flatten_eq]
  by_cases hne : p = []
  · rw [hne]
    exact placeholder_isInfix_writeParts f hclose.flatten blocks
  · rw [parts_append_block hp hne hclose.flatten, writeParts_block]
    exact (hrest hne _).trans (List.suffix_append _ _).isInfix

end Rule

namespace Sheet

/-- A block without a prelude shows its placeholder, whatever is done to the rules and whichever
blocks are handed out to them. -/
theorem Reads.placeholder_isInfix {sheet : Sheet} (h : sheet.Reads t)
    (hnames : ¬ sheet.NamesBlocks) (f : Rule → Rule) (blocks : List Text) :
    '{' :: Block.placeholder <:+:
      Rule.writeParts f (Rule.parts (Block.flatten t).skeleton) blocks := by
  induction h generalizing blocks with
  | fragment hrun => exact absurd trivial hnames
  | @statement p t rest hrun hrest ih =>
    rw [Block.flatten_append (fun c hc => (hrun c hc).2.1), Block.flatten_cons (by decide)]
    by_cases hne : p = []
    · rw [hne, List.nil_append, Rule.parts_cons (by decide), Rule.writeParts_copied]
      exact (ih hnames blocks).trans (List.suffix_append _ _).isInfix
    · rw [Rule.parts_append_semicolon hrun hne, Rule.writeParts_statement]
      exact (ih hnames blocks).trans (List.suffix_append _ _).isInfix
  | stray hrun hrest ih =>
    rw [Block.flatten_append (fun c hc => (hrun c hc).2.1), Block.flatten_cons (by decide),
      Rule.parts_close hrun, Rule.writeParts_copied]
    exact (ih hnames blocks).trans (List.suffix_append _ _).isInfix
  | block hrun hlevel hclose hrest ih =>
    exact Rule.placeholder_isInfix_append_block f hrun hclose
      (fun hne => ih fun hrest => hnames ⟨hne, hrest⟩) blocks
  | group hrun hlevel hclose hbody hrest ihbody ih =>
    exact Rule.placeholder_isInfix_append_block f hrun hclose
      (fun hne => ih fun hrest => hnames ⟨hne, hrest⟩) blocks

end Sheet

namespace Rule

/-- Rules that are changed one after the other, without any effect, are changed. -/
theorem mapM_eq_map {m : Type → Type} [Monad m] [LawfulMonad m] (f : Rule → Rule) (t : Text) :
    mapM (m := m) (fun r => pure (f r)) t = pure (map f t) := by
  have hitems : mapM (m := m) (fun r => pure (f r)) t = (do
      let written ← (items t).mapM fun item => (pure (item.write f) : m Text)
      return written.flatten) := by
    rw [mapM]
    congr 2
    funext item
    cases item with
    | copied text => rfl
    | rule slot r => exact pure_bind (f r) _
  rw [hitems, List.mapM_pure, pure_bind]
  rfl

/-- Rules that are left as they are make up the text if each block has a prelude, and if one has
none, its placeholder is seen. -/
theorem map_id_eq_self (t : Text) :
    ((Sheet.read t).NamesBlocks → map id t = t) ∧
      (¬ (Sheet.read t).NamesBlocks → ∀ f, '{' :: Block.placeholder <:+: map f t) := by
  have hreads := Sheet.reads_read t
  constructor
  · intro hnames
    exact hreads.map_id hnames
  · intro hnames f
    rw [map_eq_writeParts]
    exact hreads.placeholder_isInfix hnames f _

/-- Blank preludes, a block in a block, a brace too many, and a block that is open at the end. -/
theorem map_id_eq_self_nested :
    map id " \x7ba\x7d b \x7bc \x7bd\x7d\x7d ; \x7d;e\x7b\x7df \x7bg".toList =
      " \x7ba\x7d b \x7bc \x7bd\x7d\x7d ; \x7d;e\x7b\x7df \x7bg".toList :=
  (map_id_eq_self " \x7ba\x7d b \x7bc \x7bd\x7d\x7d ; \x7d;e\x7b\x7df \x7bg".toList).1
    (by decide +kernel)

/-- The block without a prelude shows its placeholder, and its content goes to the next rule. -/
theorem map_id_moves_block :
    map id "\x7ba\x7d b \x7bc\x7d".toList = "\x7b%BLOCK%\x7d b \x7ba\x7d".toList ∧
      map id "\x7ba\x7d b \x7bc\x7d".toList ≠ "\x7ba\x7d b \x7bc\x7d".toList := by
  decide +kernel

end Rule

end ScopedStyles
