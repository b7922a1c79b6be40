import ScopedStyles.Proofs.Sheet.Blocks
import ScopedStyles.Proofs.Sheet.Styles
import ScopedStyles.Proofs.Text.Scans

/-!
# Blanks at the end of a sheet

Blanks behind a stylesheet stay at its end when its rules are scoped (`Scope.trimEnd_rules_append`),
whatever the stylesheet looks like: they go behind the last rule, or into the block that is open at
the end. Here preludes may be blank, and blocks need not be closed.
-/

namespace ScopedStyles

open Text

namespace Rule

variable {w : Text}

theorem splitBrace_append_of_head {u : Text} (hu : ∀ c ∈ u.head?, c ≠ '}') (t : Text) :
    splitBrace (t ++ u) = ((splitBrace t).1, (splitBrace t).2 ++ u) := by
  cases t with
  | nil =>
    show splitBrace u = ([], u)
    unfold splitBrace
    split
    · exact absurd rfl (hu '}' rfl)
    · rfl
  | cons c t =>
    by_cases hc : c = '}'
    · subst hc
      rfl
    · simp [splitBrace, hc]

/-- Behind a text that is not blank nothing belongs to its first blanks. -/
theorem splitSemicolon_append_of_ne_nil {t : Text} (ht : t.dropWhile isBlank ≠ []) (u : Text) :
    splitSemicolon (t ++ u) = ((splitSemicolon t).1, (splitSemicolon t).2 ++ u) := by
  obtain ⟨c, rest, hdrop⟩ := List.exists_cons_of_ne_nil ht
  have hlen : (t.takeWhile isBlank).length ≠ t.length := by
    intro hlen
    have hself := (List.takeWhile_prefix isBlank).eq_of_length hlen
    exact ht (List.dropWhile_eq_nil_iff.mpr (List.takeWhile_eq_self_iff.mp hself))
  have htake : (t ++ u).takeWhile isBlank = t.takeWhile isBlank := by
    rw [List.takeWhile_append, if_neg hlen]
  have hdrop' : (t ++ u).dropWhile isBlank = c :: (rest ++ u) := by
    rw [List.dropWhile_append, hdrop]
    rfl
  rw [splitSemicolon, splitSemicolon, htake, hdrop', hdrop]
  by_cases hc : c = ';'
  · subst hc
    rfl
  · simp [hc]

theorem splitSemicolon_of_blanks {t : Text} (ht : ∀ c ∈ t, isBlank c) :
    splitSemicolon t = (t, []) := by
  have h := splitSemicolon_blanks ht (t := []) (by simp)
  rwa [List.append_nil] at h

/-- Blanks behind a text belong to the end of a rule, or they are behind what follows it. -/
theorem splitEnd_append_of_blanks (hw : ∀ c ∈ w, isBlank c) (t : Text) :
    splitEnd (t ++ w) = ((splitEnd t).1, (splitEnd t).2 ++ w) ∨
      (splitEnd t).2 = [] ∧ splitEnd (t ++ w) = ((splitEnd t).1 ++ w, []) := by
  have hhead : ∀ c ∈ w.head?, c ≠ '}' := by
    rintro c hc rfl
    exact absurd (hw _ (List.mem_of_mem_head? hc)) (by decide)
  simp only [splitEnd, splitBrace_append_of_head hhead]
  by_cases hdrop : (splitBrace t).2.dropWhile isBlank = []
  · have ht := List.dropWhile_eq_nil_iff.mp hdrop
    have htw : ∀ c ∈ (splitBrace t).2 ++ w, isBlank c :=
      fun c hc => (List.mem_append.mp hc).elim (ht c) (hw c)
    rw [splitSemicolon_of_blanks ht, splitSemicolon_of_blanks htw, List.append_assoc]
    exact .inr ⟨rfl, rfl⟩
  · exact .inl (by rw [splitSemicolon_append_of_ne_nil hdrop])

/-! ## Writing the parts of a text -/

/-- Blanks behind a flattened text are there too when its rules have been changed. -/
theorem writeParts_append_of_blanks (hw : ∀ c ∈ w, isBlank c) (f : Rule → Rule) (t : Text)
    (blocks : List Text) :
    writeParts f (parts (t ++ w)) blocks = writeParts f (parts t) blocks ++ w := by
  induction t using run_induction generalizing blocks with
  | run p hp =>
    have hpw : IsRun (p ++ w) := by
      intro c hc
      exact (List.mem_append.mp hc).elim (hp c) (isRun_of_blanks hw c)
    rw [writeParts_run f hpw, writeParts_run f hp]
  | append p c rest hp hc ih =>
    have hcopied : ∀ text, writeParts f (.copied text :: parts (rest ++ w)) blocks =
        writeParts f (.copied text :: parts rest) blocks ++ w := by
      intro text
      rw [writeParts_copied, writeParts_copied, ih rest (List.suffix_refl rest), List.append_assoc]
    rw [List.append_assoc, List.cons_append, parts_append hp hc, parts_append hp hc]
    by_cases hnil : p = []
    · rw [if_pos hnil, if_pos hnil]
      exact hcopied _
    · rw [if_neg hnil, if_neg hnil]
      by_cases hsemicolon : c = ';'
      · rw [if_pos hsemicolon, if_pos hsemicolon, writeParts_statement, writeParts_statement,
          ih rest (List.suffix_refl rest), List.append_assoc]
      · rw [if_neg hsemicolon, if_neg hsemicolon, ← List.cons_append,
          after?_append_of_blanks (by decide) (by decide) hw]
        cases hafter : after? .exact ('{' :: Block.placeholder) (c :: rest) with
        | none => exact hcopied _
        | some tail =>
          have hsuffix := (splitEnd_suffix tail).trans (suffix_of_after?_placeholder hafter)
          simp only [Option.map_some]
          obtain hend | ⟨hbehind, hend⟩ := splitEnd_append_of_blanks hw tail
          · rw [hend, writeParts_block, writeParts_block, ih _ hsuffix, List.append_assoc]
          · rw [hend, hbehind, writeParts_block, writeParts_block]
            simp [Slot.write]

/-! ## A block that is open at the end -/

/-- No item depends on the block at the end of the queue, or it is the content of the last one. -/
def EndsWithBlock (ps : List Part) (blocks : List Text) : Prop :=
  (∃ l, ∀ b, fill ps (blocks ++ [b]) = l) ∨
    ∃ l slot selector, slot.after = [] ∧
      ∀ b, fill ps (blocks ++ [b]) = l ++ [.rule slot ⟨selector, b⟩]

theorem EndsWithBlock.cons {ps ps' : List Part} {blocks blocks' : List Text}
    (h : EndsWithBlock ps blocks) {item : Item}
    (hitem : ∀ b, fill ps' (blocks' ++ [b]) = item :: fill ps (blocks ++ [b])) :
    EndsWithBlock ps' blocks' := by
  obtain ⟨l, hl⟩ | ⟨l, slot, selector, hslot, hl⟩ := h
  · exact .inl ⟨item :: l, fun b => by rw [hitem, hl]⟩
  · exact .inr ⟨item :: l, slot, selector, hslot, fun b => by rw [hitem, hl, List.cons_append]⟩

/-- A flattened block that is open at the end of a text. -/
def openBlock : Text := '{' :: Block.placeholder

theorem splitEnd_append_openBlock (t : Text) :
    splitEnd (t ++ openBlock) = ((splitEnd t).1, (splitEnd t).2 ++ openBlock) := by
  have hopen : ∀ c ∈ openBlock.head?, c = '{' := fun c hc => (Option.some.inj hc).symm
  have hbrace : ∀ c ∈ openBlock.head?, c ≠ '}' := fun c hc => hopen c hc ▸ by decide
  simp only [splitEnd, splitBrace_append_of_head hbrace]
  by_cases hdrop : (splitBrace t).2.dropWhile isBlank = []
  · have ht := List.dropWhile_eq_nil_iff.mp hdrop
    have hhead : ∀ c ∈ openBlock.head?, ¬ isBlank c ∧ c ≠ ';' := fun c hc => hopen c hc ▸ by decide
    rw [splitSemicolon_blanks ht hhead, splitSemicolon_of_blanks ht]
    rfl
  · rw [splitSemicolon_append_of_ne_nil hdrop]

/-- Where there are blocks enough for all braces before it, an open block is not dealt out to
another rule. -/
theorem endsWithBlock_parts {t : Text} {blocks : List Text} (h : t.count '{' ≤ blocks.length) :
    EndsWithBlock (parts (t ++ openBlock)) blocks := by
  induction t using run_induction generalizing blocks with
  | run p hp =>
    have hopen : ¬ inPrelude '{' := by decide
    have hplaceholder : IsRun Block.placeholder := by decide
    have hafter : after? .exact ('{' :: Block.placeholder) ('{' :: Block.placeholder) = some [] :=
      after?_exact.mpr rfl
    rw [openBlock, parts_append hp hopen, hafter]
    by_cases hnil : p = []
    · rw [if_pos hnil, parts_run hplaceholder]
      exact .inl ⟨[.copied ['{'], .copied Block.placeholder], fun b => rfl⟩
    · have hparts : parts [] = [] := parts_run (by simp [IsRun])
      rw [if_neg hnil, if_neg (by decide)]
      show EndsWithBlock (_ :: parts []) blocks
      rw [hparts]
      cases blocks with
      | nil => exact .inr ⟨[], _, _, rfl, fun b => rfl⟩
      | cons b blocks => exact .inl ⟨[.rule _ ⟨_, b⟩], fun _ => rfl⟩
  | append p c rest hp hc ih =>
    rw [List.count_append, List.count_cons] at h
    have hrest : EndsWithBlock (parts (rest ++ openBlock)) blocks :=
      ih rest (List.suffix_refl rest) (by omega)
    rw [List.append_assoc, List.cons_append, parts_append hp hc]
    by_cases hnil : p = []
    · rw [if_pos hnil]
      exact hrest.cons fun b => rfl
    · rw [if_neg hnil]
      by_cases hsemicolon : c = ';'
      · rw [if_pos hsemicolon]
        exact hrest.cons fun b => rfl
      · have hbars : Bars .exact ('{' :: Block.placeholder) openBlock := bars_cons (by decide) _
        rw [if_neg hsemicolon, ← List.cons_append,
          after?_append_of_bars hbars (List.cons_ne_nil c rest)]
        cases hafter : after? .exact ('{' :: Block.placeholder) (c :: rest) with
        | none => exact hrest.cons fun b => rfl
        | some tail =>
          have hsuffix := (splitEnd_suffix tail).trans (suffix_of_after?_placeholder hafter)
          have hcount := hsuffix.sublist.count_le '{'
          obtain ⟨rfl, -⟩ := List.cons.inj (after?_exact.mp hafter)
          simp only [beq_self_eq_true, if_true] at h
          cases blocks with
          | nil => simp at h
          | cons b blocks =>
            simp only [List.length_cons] at h
            have hend := ih _ hsuffix (by omega : _ ≤ blocks.length)
            simp only [Option.map_some, splitEnd_append_openBlock]
            exact hend.cons fun b => rfl

end Rule

namespace Block

variable {w : Text}

theorem staysOpen_append_of_not_mem {depth : Nat} {t : Text} (ht : StaysOpen depth t)
    (hw : '}' ∉ w) : StaysOpen depth (t ++ w) := by
  intro p hp
  obtain ⟨rest, hrest⟩ := hp
  rcases List.append_eq_append_iff.mp hrest with ⟨q, rfl, -⟩ | ⟨q, rfl, hq⟩
  · exact ht p (List.prefix_append p q)
  · have := ht t (List.prefix_refl t)
    have hnone : q.count '}' = 0 :=
      List.count_eq_zero.mpr fun hmem => hw (hq ▸ List.mem_append_left rest hmem)
    simp only [List.count_append]
    omega

/-- Blanks behind a text stay behind the flattened text, or they belong to the block that is open at
the end. -/
theorem flatten_append_of_blanks (hw : ∀ c ∈ w, isBlank c) (t : Text) :
    flatten (t ++ w) = ⟨(flatten t).skeleton ++ w, (flatten t).blocks⟩ ∨
      ∃ s blocks b, s.count '{' = blocks.length ∧ b.length < t.length ∧
        flatten t = ⟨s ++ Rule.openBlock, blocks ++ [b]⟩ ∧
        flatten (t ++ w) = ⟨s ++ Rule.openBlock, blocks ++ [b ++ w]⟩ := by
  have hopen : '{' ∉ w := not_mem_of_blanks hw (by decide)
  have hclose : '}' ∉ w := not_mem_of_blanks hw (by decide)
  induction t using block_induction with
  | plain p hp =>
    have hpw : '{' ∉ p ++ w := fun h => (List.mem_append.mp h).elim hp hopen
    rw [flatten_plain hpw, flatten_plain hp]
    exact .inl rfl
  | unclosed p b hp hb =>
    rw [List.append_assoc, List.cons_append,
      flatten_unclosed hp (staysOpen_append_of_not_mem hb hclose), flatten_unclosed hp hb]
    refine .inr ⟨p, [], b, List.count_eq_zero.mpr hp, ?_, rfl, rfl⟩
    simp only [List.length_append, List.length_cons]
    omega
  | closed p b rest hp hb ih =>
    rw [show p ++ '{' :: (b ++ '}' :: rest) ++ w = p ++ '{' :: (b ++ '}' :: (rest ++ w)) by simp,
      flatten_closed hp hb, flatten_closed hp hb]
    obtain hflat | ⟨s, blocks, b', hcount, hshort, ht, htw⟩ := ih
    · rw [hflat]
      exact .inl (by simp)
    · refine .inr ⟨p ++ '{' :: (placeholder ++ '}' :: s), b :: blocks, b', ?_, ?_, ?_, ?_⟩
      · have hbefore : p.count '{' = 0 := List.count_eq_zero.mpr hp
        have hnone : placeholder.count '{' = 0 := by decide
        simp [hbefore, hnone, hcount]
      · simp only [List.length_append, List.length_cons]
        omega
      · rw [ht]
        simp
      · rw [htw]
        simp

end Block

namespace Scope

variable {w : Text}

/-- Blanks at the end of a rule that is not closed stay at its end when it is scoped. -/
theorem trimEnd_write_rule (s : Scope) (hw : ∀ c ∈ w, isBlank c) {slot : Rule.Slot}
    (hslot : slot.after = []) (selector : Text) {b : Text}
    (hcontent : trimEnd (s.rules (b ++ w)) = trimEnd (s.rules b)) :
    trimEnd (slot.write (s.rule ⟨selector, b ++ w⟩)) =
      trimEnd (slot.write (s.rule ⟨selector, b⟩)) := by
  have hblanks : ∀ p : Text, trimEnd (p ++ (b ++ w)) = trimEnd (p ++ b) := by
    intro p
    rw [← List.append_assoc, trimEnd_append_of_blanks hw]
  -- whether the rule is changed, and how, depends on its selector only
  have hsame : (Rule.hasSelector ⟨selector, b ++ w⟩ = Rule.hasSelector ⟨selector, b⟩) ∧
    (Rule.isConditional ⟨selector, b ++ w⟩ = Rule.isConditional ⟨selector, b⟩) := ⟨rfl, rfl⟩
  simp only [Rule.Slot.write, hslot, List.append_nil]
  rw [rule, rule, hsame.1, hsame.2]
  split
  · exact hblanks _
  · split
    · exact trimEnd_append_congr hcontent _
    · exact hblanks _

/-- Blanks behind a stylesheet change nothing but the blanks at its end. -/
theorem trimEnd_rules_append (s : Scope) (hw : ∀ c ∈ w, isBlank c) (t : Text) :
    trimEnd (s.rules (t ++ w)) = trimEnd (s.rules t) := by
  induction hlen : t.length using Nat.strong_induction_on generalizing t with
  | _ n ih =>
    rw [rules_eq_map, rules_eq_map, Rule.map_eq_writeParts, Rule.map_eq_writeParts]
    obtain hflat | ⟨skeleton, blocks, b, hcount, hshort, ht, htw⟩ :=
      Block.flatten_append_of_blanks hw t
    · rw [hflat, Rule.writeParts_append_of_blanks hw, trimEnd_append_of_blanks hw]
    · rw [ht, htw, Rule.writeParts, Rule.writeParts]
      obtain ⟨l, hl⟩ | ⟨l, slot, selector, hslot, hl⟩ := Rule.endsWithBlock_parts hcount.le
      · simp only [hl]
      · have hcontent := ih b.length (hlen ▸ hshort) b rfl
        simp only [hl, List.flatMap_append, List.flatMap_singleton]
        exact trimEnd_append_congr (s.trimEnd_write_rule hw hslot selector hcontent) _

end Scope

end ScopedStyles
