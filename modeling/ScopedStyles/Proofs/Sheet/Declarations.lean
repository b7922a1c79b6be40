import ScopedStyles.Proofs.Selector.Pieces
import ScopedStyles.Proofs.Sheet.Plain
import ScopedStyles.Proofs.Sheet.Styles

/-!
# Declarations

A stylesheet for the document has the declarations of the component's stylesheet, block by block
(`Scope.encapsulate_blocks`). Host selectors and the combinators that stay inside a component are
looked for in all of the stylesheet, so this takes that the declarations have none of their words: a
path such as `/shadow/` in a url would lose its name.
-/

namespace ScopedStyles

open Text

/-! ## Style rules -/

namespace Rule

/-- A rule with a block, as it is written. -/
def text (r : Rule) : Text := r.selector ++ '{' :: (r.content ++ ['}'])

/-- A rule without the comments of its selector. -/
def bare (r : Rule) : Rule := { r with selector := Comment.strip r.selector }

/-- A rule with a selector, whose block holds declarations and no rules. -/
@[mk_iff]
structure IsStyle (r : Rule) : Prop where
  run : IsRun r.selector
  ink : HasInk r.selector
  flat : ¬ OpensLevel r.selector
  declarations : ∀ c ∈ r.content, c ≠ '{' ∧ c ≠ '}'

instance (r : Rule) : Decidable r.IsStyle := decidable_of_iff' _ r.isStyle_iff

end Rule

namespace Scope

/-! ## Scoping rules one by one -/

/-- A style rule is scoped by itself, whatever rules follow. -/
theorem rules_text_append (s : Scope) {r : Rule} (hr : r.IsStyle) {t : Text} (ht : BeginsRule t) :
    s.rules (r.text ++ t) =
      Rule.text { r with selector := s.prelude r.selector } ++ s.rules t := by
  have hblock := s.rules_block_append hr.run hr.ink (balanced_of_forall_ne hr.declarations) ht
  rw [if_neg hr.flat] at hblock
  simpa [Rule.text] using hblock

/-- A rule with its selector scoped. -/
def style (s : Scope) (r : Rule) : Rule := { r with selector := s.prelude r.selector }

/-- Style rules are scoped one by one. -/
theorem rules_flatMap_text (s : Scope) {styles : List Rule} (hstyles : ∀ r ∈ styles, r.IsStyle)
    {blanks : Text} (hblanks : ∀ c ∈ blanks, isBlank c) :
    s.rules (styles.flatMap Rule.text ++ blanks) =
      (styles.map s.style).flatMap Rule.text ++ blanks := by
  induction styles with
  | nil => exact s.rules_run (isRun_of_blanks hblanks)
  | cons r styles ih =>
    rw [List.forall_mem_cons] at hstyles
    have hnext : (∀ c ∈ styles.flatMap Rule.text ++ blanks, isBlank c) ∨
        ∃ p c u, styles.flatMap Rule.text ++ blanks = p ++ c :: u ∧ IsRun p ∧ HasInk p ∧
          ¬ Rule.inPrelude c := by
      cases styles with
      | nil => exact .inl hblanks
      | cons q styles =>
        have hq := hstyles.2 q List.mem_cons_self
        refine .inr ⟨q.selector, '{',
          q.content ++ '}' :: (styles.flatMap Rule.text ++ blanks), ?_, hq.run, hq.ink, by decide⟩
        simp [Rule.text]
    rw [List.flatMap_cons, List.append_assoc, s.rules_text_append hstyles.1 hnext, ih hstyles.2,
      List.map_cons, List.flatMap_cons, List.append_assoc]
    rfl

end Scope

/-! ## Blocks -/

namespace Rule

/-- The blocks of rules that follow each other are their contents. -/
theorem blocks_flatMap_text {rules : List Rule} (hopen : ∀ r ∈ rules, '{' ∉ r.selector)
    (hcontent : ∀ r ∈ rules, ∀ c ∈ r.content, c ≠ '{' ∧ c ≠ '}') :
    (Block.flatten (rules.flatMap text)).blocks = rules.map content := by
  induction rules with
  | nil => rw [List.flatMap_nil, Block.flatten_nil, List.map_nil]
  | cons r rules ih =>
    rw [List.forall_mem_cons] at hopen hcontent
    have hselector : ∀ c ∈ r.selector, c ≠ '{' := fun c hc h => hopen.1 (h ▸ hc)
    have hbody : Block.body 0 (r.content ++ '}' :: rules.flatMap text) =
        (r.content, '}' :: rules.flatMap text) :=
      (balanced_of_forall_ne hcontent.1).body_append_close _
    simp only [List.flatMap_cons, text, List.append_assoc, List.cons_append, List.nil_append]
    rw [Block.flatten_append hselector, Block.flatten_open, hbody, Block.flatten_cons (by decide),
      ih hopen.2 hcontent.2, List.map_cons]

/-- Rules that follow each other begin with a selector and end with a brace. -/
theorem exists_flatMap_text (r : Rule) (rules : List Rule) :
    ∃ inner, ∀ selector, ({ r with selector } :: rules).flatMap text =
      selector ++ '{' :: (inner ++ ['}']) := by
  obtain ⟨inner, hinner⟩ :
      ∃ inner, (r.content ++ ['}']) ++ rules.flatMap text = inner ++ ['}'] := by
    induction rules using List.reverseRecOn with
    | nil => exact ⟨r.content, by simp⟩
    | append_singleton rules q _ =>
      exact ⟨r.content ++ '}' :: (rules.flatMap text ++ q.selector ++ '{' :: q.content),
        by simp [text]⟩
  refine ⟨inner, fun selector => ?_⟩
  rw [List.flatMap_cons, text, List.append_assoc, List.cons_append, hinner]

/-- The first selector apart there is nothing to trim. -/
theorem trim_flatMap_text (r : Rule) (rules : List Rule) :
    trim ((r :: rules).flatMap text) =
      ({ r with selector := trimStart r.selector } :: rules).flatMap text := by
  obtain ⟨inner, hinner⟩ := exists_flatMap_text r rules
  have hrules : (r :: rules).flatMap text = r.selector ++ '{' :: (inner ++ ['}']) :=
    hinner r.selector
  rw [hrules, hinner, trim, trimStart_append_cons (by decide), ← List.cons_append,
    ← List.append_assoc, trimEnd_append_singleton (by decide)]

/-- Rules with nothing to normalize in their selectors and contents have nothing to normalize. -/
theorem isPlain_flatMap_text_append {rules : List Rule}
    (hrules : ∀ r ∈ rules, Host.IsPlain r.selector ∧ Host.IsPlain r.content) {blanks : Text}
    (hblanks : ∀ c ∈ blanks, isBlank c) : Host.IsPlain (rules.flatMap text ++ blanks) := by
  induction rules with
  | nil => exact Host.isPlain_of_blanks hblanks
  | cons r rules ih =>
    rw [List.forall_mem_cons] at hrules
    have hopen : Divides Host.words '{' := by decide
    have hclose : Divides Host.words '}' := by decide
    simp only [List.flatMap_cons, text, List.append_assoc, List.cons_append, List.nil_append]
    exact (lacks_append_cons hopen _ _).mpr
      ⟨hrules.1.1, (lacks_append_cons hclose _ _).mpr ⟨hrules.1.2, ih hrules.2⟩⟩

end Rule

/-! ## The whole way -/

namespace Scope

/-- Where neither the selectors nor the declarations of a stylesheet have words of host selectors in
them, only the selectors are written differently, and the blocks are those of the stylesheet. -/
theorem encapsulate_blocks (s : Scope) (hscope : s.content ≠ []) {css blanks : Text}
    {styles : List Rule} (hcss : css = styles.flatMap Rule.text ++ blanks)
    (hblanks : ∀ c ∈ blanks, isBlank c)
    (hcomments : Comment.strip css = (styles.map Rule.bare).flatMap Rule.text ++ blanks)
    (hdirectives : ∀ d : Directive, d.reader.found (Comment.strip css) = [])
    (hstyles : ∀ r ∈ styles, r.bare.IsStyle)
    (hplain : ∀ r ∈ styles, Host.IsPlain r.bare.selector ∧ Host.IsPlain r.content) :
    s.encapsulate css = trim ((styles.map fun r => s.style r.bare).flatMap Rule.text) ∧
      (¬ s.Brings '{' →
        (Block.flatten (s.encapsulate css)).blocks = styles.map Rule.content) := by
  have hplain' : Host.IsPlain (Comment.strip css) := by
    rw [hcomments]
    refine Rule.isPlain_flatMap_text_append (fun r hr => ?_) hblanks
    obtain ⟨q, hq, rfl⟩ := List.mem_map.mp hr
    exact hplain q hq
  have hrules : s.rules (Comment.strip css) =
      (styles.map fun r => s.style r.bare).flatMap Rule.text ++ blanks := by
    have hbare : ∀ r ∈ styles.map Rule.bare, r.IsStyle := List.forall_mem_map.mpr hstyles
    rw [hcomments, s.rules_flatMap_text hbare hblanks, List.map_map]
    rfl
  -- a comment at the end would be among the blanks or close the last block
  have hmap : Comment.sourceMap css = [] := by
    cases styles with
    | nil =>
      refine Comment.sourceMap_of_not_suffix ?_
      rw [hcss, List.flatMap_nil, List.nil_append, trimEnd_eq_nil hblanks]
      decide
    | cons r styles =>
      obtain ⟨inner, hinner⟩ := Rule.exists_flatMap_text r styles
      have hclose : css = (r.selector ++ '{' :: inner) ++ '}' :: blanks := by
        rw [hcss, hinner r.selector]
        simp
      rw [hclose, Comment.sourceMap_of_closes_block hblanks]
  have hwhole : s.encapsulate css =
      trim ((styles.map fun r => s.style r.bare).flatMap Rule.text) := by
    rw [s.encapsulate_of_found_eq_nil hscope hdirectives, Host.normalize_of_isPlain hplain', hrules,
      hmap, trim_append_of_blanks hblanks, List.append_nil]
  refine ⟨hwhole, fun hopen => ?_⟩
  have hselector : ∀ r ∈ styles, '{' ∉ (s.style r.bare).selector := fun r hr =>
    not_mem_prelude (fun hc => ((hstyles r hr).run _ hc).2.1 rfl) hopen
  rw [hwhole]
  cases styles with
  | nil => exact congrArg Block.Flat.blocks Block.flatten_nil
  | cons r styles =>
    rw [List.map_cons, Rule.trim_flatMap_text, Rule.blocks_flatMap_text]
    · simp [style, Rule.bare]
    · rw [List.forall_mem_cons] at hselector ⊢
      exact ⟨fun hc => hselector.1 ((trimStart_suffix _).subset hc),
        List.forall_mem_map.mpr hselector.2⟩
    · rw [List.forall_mem_cons] at hstyles ⊢
      exact ⟨hstyles.1.declarations,
        List.forall_mem_map.mpr fun q hq => (hstyles.2 q hq).declarations⟩

/-- A comment in a selector, a pseudo-class, and a url with a path. -/
theorem encapsulate_blocks_urls :
    (Block.flatten (Scope.encapsulate { content := "c".toList, host := "h".toList }
      "a, b:c::d \x7bx: url(y/z.png)\x7d\n /* \x7b */ e > f\x7b\x7d\n".toList)).blocks =
        ["x: url(y/z.png)".toList, []] := by
  have hdirectives : ∀ d : Directive, d.reader.found (Comment.strip
      "a, b:c::d \x7bx: url(y/z.png)\x7d\n /* \x7b */ e > f\x7b\x7d\n".toList) = [] := by
    intro d
    cases d <;> decide +kernel
  have hbrings : ¬ Brings { content := "c".toList, host := "h".toList } '{' := by
    rintro (h | h | h) <;> exact absurd h (by decide)
  exact (@encapsulate_blocks { content := "c".toList, host := "h".toList } (by decide) _
    "\n".toList
    [⟨"a, b:c::d ".toList, "x: url(y/z.png)".toList⟩, ⟨"\n /* \x7b */ e > f".toList, []⟩]
    (by decide +kernel) (by decide) (by decide +kernel) hdirectives (by decide +kernel)
    (by decide +kernel)).2 hbrings

/-- A url with the path `/shadow/` loses it. -/
theorem encapsulate_rewrites_url :
    ¬ ∀ (s : Scope) (r : Rule), s.content ≠ [] → r.IsStyle → Host.IsPlain r.selector →
      ¬ includes .exact Comment.opening r.content →
      ¬ includes .anyCase Directive.stem r.content →
        (Block.flatten (s.encapsulate r.text)).blocks = [r.content] := by
  intro h
  have hblocks := h { content := "c".toList, host := "h".toList }
    ⟨"a ".toList, "x: url(/shadow/y)".toList⟩ (by decide) (by decide +kernel) (by decide +kernel)
    (by decide +kernel) (by decide +kernel)
  exact absurd hblocks (by decide +kernel)

end Scope

end ScopedStyles
