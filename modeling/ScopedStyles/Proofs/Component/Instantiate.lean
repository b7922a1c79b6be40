import ScopedStyles.Proofs.Component.Selector
import ScopedStyles.Proofs.Sheet.Blocks
import ScopedStyles.Proofs.Sheet.Plain

/-!
# Instantiating the styles of a component

Styles may be scoped before the identifier of their component is known, with a placeholder in its
place, and be instantiated later. The main result is that this makes no difference
(`Component.instantiate_encapsulate`): instantiated styles are what the stylesheet is scoped to once
the identifier is known.
-/

namespace ScopedStyles

open Text

/-- The selectors of a stylesheet that are scoped: those of its style rules and of `@page`, and
those in the bodies of its conditions. -/
def Rule.selectors (css : Text) : List Text :=
  (Rule.items css).attach.flatMap fun
    | ⟨.copied _, _⟩ => []
    | ⟨.rule _ r, _⟩ =>
      if r.hasSelector then [r.selector]
      else if r.isConditional then Rule.selectors r.content
      else []
termination_by css.length
decreasing_by exact Rule.length_content_lt ‹_›

namespace Rule

variable {css t : Text} {slot : Slot} {r : Rule}

theorem mem_selectors_of_hasSelector (hr : .rule slot r ∈ items css) (h : r.hasSelector) :
    r.selector ∈ selectors css := by
  rw [selectors, List.mem_flatMap]
  exact ⟨⟨.rule slot r, hr⟩, List.mem_attach _ _, by simp [h]⟩

theorem mem_selectors_of_isConditional (hr : .rule slot r ∈ items css) (hnot : ¬ r.hasSelector)
    (h : r.isConditional) (ht : t ∈ selectors r.content) : t ∈ selectors css := by
  rw [selectors, List.mem_flatMap]
  exact ⟨⟨.rule slot r, hr⟩, List.mem_attach _ _, by simpa [h, hnot] using ht⟩

end Rule

open Component Rule

variable {id : Text}

/-! ## Rules -/

theorem not_mem_placeholder_of_isBlank {c : Char} (hc : isBlank c) : c ∉ placeholder := by
  have hink : ∀ a ∈ placeholder, ¬ isBlank a := by decide
  exact fun hmem => hink c hmem hc

/-- A selector between its blanks. -/
theorem Component.Fills.prelude {x y before behind : Text} (h : Fills id x y)
    (hbefore : ∀ c ∈ before, isBlank c) (hbehind : ∀ c ∈ behind, isBlank c) :
    Fills id (before ++ (x ++ behind)) (before ++ (y ++ behind)) := by
  refine Front.of_not_mem (fun hmem => absurd (hbefore _ hmem) (by decide)) _ _ ?_
  exact h.append_text fun c hc => not_mem_placeholder_of_isBlank (hbehind c hc)

/-- A block that is closed, or that ends the text. -/
theorem Component.Fills.append_splitEnd {x y u v t : Text} (h : Fills id x y) (hu : Fills id u v)
    (hhead : ∀ c ∈ t.head?, c = '}') (hnil : t = [] → u = [] ∧ v = []) :
    Fills id (x ++ ((splitEnd t).1 ++ u)) (y ++ ((splitEnd t).1 ++ v)) := by
  cases t with
  | nil =>
    obtain ⟨rfl, rfl⟩ := hnil rfl
    simpa [splitEnd_nil] using h
  | cons c t =>
    obtain rfl := hhead c rfl
    rw [splitEnd_close]
    refine h.append_cons (Front.of_not_mem (fun hmem => ?_) u v hu) (by decide)
    exact (mem_splitSemicolon hmem).elim (absurd · (by decide)) (absurd · (by decide))

/-- A text whose rules are written to templates is written to a template. -/
theorem Component.Fills.writeParts {f g : Rule → Rule}
    (hnil : ∀ r, r.content = [] → (f r).content = [] ∧ (g r).content = []) {t : Text}
    (ht : Block.IsSkeleton t) (hlacks : ¬ includes .exact placeholder t) (blocks : List Text)
    (h : ∀ slot r, .rule slot r ∈ fill (parts t) blocks →
      Fills id (f r).selector (g r).selector ∧ Fills id (f r).content (g r).content) :
    Fills id (Rule.writeParts f (parts t) blocks) (Rule.writeParts g (parts t) blocks) := by
  induction t using parts_induction generalizing blocks with
  | run p hp =>
    rw [writeParts_run f hp, writeParts_run g hp]
    exact .text hlacks
  | copied p c rest hp hc ih =>
    have hsuffix := (List.suffix_cons c rest).trans (List.suffix_append p _)
    have hend : c ∉ placeholder := by
      have hprelude : ∀ a ∈ placeholder, inPrelude a := by decide
      exact fun hmem => hc (hprelude c hmem)
    have hrun : Fills id p p :=
      .text (not_includes_of_isInfix (List.prefix_append p (c :: rest)).isInfix hlacks)
    have hrest := ih (ht.of_suffix hsuffix) (not_includes_of_isInfix hsuffix.isInfix hlacks) blocks
      fun slot r hr => h slot r (List.mem_cons_of_mem _ hr)
    rw [writeParts_copied, writeParts_copied, List.append_assoc, List.append_assoc]
    exact hrun.append_cons hrest hend
  | statement p rest hp ih =>
    have hsuffix := (List.suffix_cons ';' rest).trans (List.suffix_append p _)
    have hrest := ih (ht.of_suffix hsuffix) (not_includes_of_isInfix hsuffix.isInfix hlacks) blocks
      fun slot r hr => h slot r (List.mem_cons_of_mem _ hr)
    obtain ⟨hselector, -⟩ := h _ _ List.mem_cons_self
    obtain ⟨hbefore, hbehind⟩ := isBlank_of_splitRun p
    obtain ⟨hf, hg⟩ := hnil ⟨(splitRun p).2.1, []⟩ rfl
    rw [writeParts_statement, writeParts_statement, Slot.write, Slot.write, hf, hg]
    have hend : ';' ∉ placeholder := by decide
    simpa using (hselector.prelude hbefore hbehind).append_cons hrest hend
  | block p tail hp ih =>
    have htail : tail <:+ p ++ '{' :: (Block.placeholder ++ tail) :=
      ⟨p ++ '{' :: Block.placeholder, by simp⟩
    have hsuffix := (splitEnd_suffix tail).trans htail
    have hrest := ih (ht.of_suffix hsuffix) (not_includes_of_isInfix hsuffix.isInfix hlacks)
      blocks.tail fun slot r hr => h slot r (by rw [fill_block]; exact List.mem_cons_of_mem _ hr)
    obtain ⟨hselector, hcontent⟩ := h _ _ (by rw [fill_block]; exact List.mem_cons_self)
    obtain ⟨hbefore, hbehind⟩ := isBlank_of_splitRun p
    -- a placeholder is followed by a closing brace or by nothing
    obtain ⟨u, hu, hhead⟩ := ht _ (List.suffix_append p _)
    obtain rfl := List.append_cancel_left hu
    have hclose := hcontent.append_splitEnd hrest hhead (by rintro rfl; simp [splitEnd_nil])
    rw [writeParts_block, writeParts_block, Slot.write, Slot.write]
    have hopen : '{' ∉ placeholder := by decide
    simpa using (hselector.prelude hbefore hbehind).append_cons hclose hopen

/-- What is looked for in a template: the placeholder, and the names of content attributes. -/
def Component.names : List (Letters × Text) := [(.exact, placeholder), (.exact, contentPrefix)]

theorem Component.lacks_names_skeleton {css : Text} (h : Lacks names css) :
    Lacks names (Block.flatten css).skeleton :=
  Block.lacks_skeleton (by decide) (by decide) (by decide) h

theorem Component.lacks_names_of_mem_items {css : Text} (h : Lacks names css) {slot : Slot}
    {r : Rule} (hr : .rule slot r ∈ items css) :
    Lacks names r.selector ∧ Lacks names r.content := by
  constructor
  · exact (lacks_names_skeleton h).of_isInfix (selector_isInfix_of_mem_fill hr)
  · rcases content_of_mem_fill hr with hnil | hmem
    · rw [hnil]
      decide
    · exact h.of_isInfix (Block.infix_of_mem_blocks hmem)

namespace Scope

variable {s s' : Scope} {css : Text}

theorem content_rule_eq_nil (s : Scope) {r : Rule} (hr : r.content = []) :
    (s.rule r).content = [] := by
  unfold rule
  split
  · exact hr
  · split
    · rw [hr, rules_nil]
    · exact hr

/-- A rule is scoped to a template, and so is its body under a condition. -/
theorem IsTemplateOf.rule (hs : s.IsTemplateOf id s') {r : Rule}
    (hselector : Lacks names r.selector) (hcontent : Lacks names r.content)
    (hpercent : r.hasSelector → '%' ∉ r.selector)
    (hrules : ¬ r.hasSelector → r.isConditional →
      Fills id (s.rules r.content) (s'.rules r.content)) :
    Fills id (s.rule r).selector (s'.rule r).selector ∧
      Fills id (s.rule r).content (s'.rule r).content := by
  have hselector' : Fills id r.selector r.selector := .text (hselector _ List.mem_cons_self)
  have hcontent' : Fills id r.content r.content := .text (hcontent _ List.mem_cons_self)
  unfold Scope.rule
  by_cases hscoped : r.hasSelector
  · have hname := hselector (.exact, contentPrefix) (by decide)
    rw [if_pos hscoped, if_pos hscoped]
    exact ⟨(hs.selector (hpercent hscoped) hname).fills, hcontent'⟩
  · rw [if_neg hscoped, if_neg hscoped]
    by_cases hcondition : r.isConditional
    · rw [if_pos hcondition, if_pos hcondition]
      exact ⟨hselector', hrules hscoped hcondition⟩
    · rw [if_neg hcondition, if_neg hcondition]
      exact ⟨hselector', hcontent'⟩

/-- The rules of a stylesheet are scoped to a template. -/
theorem IsTemplateOf.rules (hs : s.IsTemplateOf id s') (h : Lacks names css)
    (hselectors : ∀ t ∈ selectors css, '%' ∉ t) : Fills id (s.rules css) (s'.rules css) := by
  induction hlen : css.length using Nat.strong_induction_on generalizing css with
  | _ n ih =>
    rw [rules_eq_map, rules_eq_map, map_eq_writeParts, map_eq_writeParts]
    refine Fills.writeParts (fun r hr => ⟨s.content_rule_eq_nil hr, s'.content_rule_eq_nil hr⟩)
      (Block.isSkeleton_flatten css) (lacks_names_skeleton h _ List.mem_cons_self) _
      fun slot r hr => ?_
    obtain ⟨hselector, hcontent⟩ := lacks_names_of_mem_items h hr
    refine hs.rule hselector hcontent
      (fun hscoped => hselectors _ (mem_selectors_of_hasSelector hr hscoped)) ?_
    intro hscoped hcondition
    -- the body of a condition is a shorter stylesheet, with selectors of the whole one
    refine ih r.content.length (hlen ▸ length_content_lt hr) hcontent ?_ rfl
    exact fun t ht => hselectors t (mem_selectors_of_isConditional hr hscoped hcondition ht)

end Scope

theorem Comment.eq_nil_or_cons_of_sourceMap (css : Text) :
    Comment.sourceMap css = [] ∨ ∃ t, Comment.sourceMap css = '/' :: t := by
  rw [Comment.sourceMap]
  cases hfound : lastSuffix? Comment.isSourceMap (trimEnd css) with
  | none => exact .inl rfl
  | some found =>
    obtain ⟨inner, hinner, -⟩ :=
      Comment.exists_after?_of_isSourceMap (suffix_and_of_lastSuffix? hfound).2
    exact .inr ⟨'*' :: inner, after?_exact.mp hinner⟩

namespace Component

/-- The text of a stylesheet whose rules are scoped: the directives in it have been expanded, its
unscoped rules taken out, and its host selectors normalized. -/
def ownText (css : Text) : Text :=
  Host.normalize (Directive.extractUnscoped (Directive.expand css)).1

/-- The stylesheet has nothing that could be taken for the placeholder or for a content attribute:
not in the text whose rules are scoped, where no selector may have a part of a placeholder either,
nor in its unscoped rules or its source map. -/
structure IsNeutral (css : Text) : Prop where
  own : Lacks names (ownText css)
  unscoped : Lacks names (Directive.extractUnscoped (Directive.expand css)).2
  sourceMap : Lacks names (Comment.sourceMap css)
  selectors : ∀ t ∈ Rule.selectors (ownText css), '%' ∉ t

variable {css : Text} {s s' : Scope}

/-- Unscoped rules go behind a template as they are. -/
theorem Fills.append_unscoped {x y unscoped : Text} (h : Fills id x y)
    (hlacks : ¬ includes .exact placeholder unscoped) :
    Fills id (if unscoped = [] then x else Text.trimEnd x ++ ['\n', '\n'] ++ unscoped)
      (if unscoped = [] then y else Text.trimEnd y ++ ['\n', '\n'] ++ unscoped) := by
  split
  · exact h
  · simp only [List.append_assoc, List.cons_append, List.nil_append]
    exact h.trimEnd.append_cons (Fills.nil.append_cons (.text hlacks) (by decide)) (by decide)

/-- A source map goes behind a template as it is. -/
theorem Fills.append_sourceMap {x y : Text} (h : Fills id x y)
    (hlacks : ¬ includes .exact placeholder (Comment.sourceMap css)) :
    Fills id (x ++ Comment.sourceMap css) (y ++ Comment.sourceMap css) := by
  obtain hnil | ⟨t, ht⟩ := Comment.eq_nil_or_cons_of_sourceMap css
  · rwa [hnil, List.append_nil, List.append_nil]
  · rw [ht] at hlacks ⊢
    have hrest := not_includes_of_isInfix (List.suffix_cons '/' t).isInfix hlacks
    exact h.append_cons (.text hrest) (by decide)

/-- A stylesheet is scoped to a template. -/
theorem IsNeutral.encapsulate (h : IsNeutral css) (hs : s.IsTemplateOf id s') :
    Fills id (s.encapsulate css) (s'.encapsulate css) := by
  obtain ⟨hown, hunscoped, hsourceMap, hselectors⟩ := h
  rw [Scope.encapsulate, Scope.encapsulate]
  rw [ownText] at hown hselectors
  generalize Directive.extractUnscoped (Directive.expand css) = stages
    at hown hunscoped hselectors ⊢
  obtain ⟨own, unscoped⟩ := stages
  have hwhole := (hs.rules hown hselectors).append_unscoped (hunscoped _ List.mem_cons_self)
  simp only [if_neg hs.template.nonempty, if_neg hs.filled.nonempty]
  exact hwhole.trim.append_sourceMap (hsourceMap _ List.mem_cons_self)

/-- Styles that are scoped for a component whose identifier is not known yet, and instantiated with
it later, are the styles that are scoped for the component. -/
theorem instantiate_encapsulate (h : IsNeutral css) (his : ¬ includes .exact "[is=".toList id)
    (hmarker : ¬ includes .anyCase "shadowcsshost".toList id) :
    [encapsulate none css].map (instantiate id) = [encapsulate (some id) css] :=
  congrArg ([·]) (h.encapsulate (isTemplateOf_scope his hmarker)).instantiate

/-- The host and a list of selectors, a rule under a condition, a rule for the whole document, and a
source map behind them. -/
theorem instantiate_encapsulate_document :
    [encapsulate none (":host b, c \x7bwidth: 5%\x7d @media m \x7bd:e \x7b\x7d\x7d " ++
        "polyfill-unscoped-rule \x7bcontent: 'u'\x7d/*# sourceMappingURL=x*/").toList].map
      (instantiate "a-b".toList) =
    [("[_nghost-a-b]   b[_ngcontent-a-b], c[_ngcontent-a-b] \x7bwidth: 5%\x7d " ++
        "@media m \x7bd[_ngcontent-a-b]:e \x7b\x7d\x7d\n\n" ++
        "u \x7b\x7d/*# sourceMappingURL=x*/").toList] := by
  refine (instantiate_encapsulate ?_ (by decide) (by decide)).trans (by decide +kernel)
  exact ⟨by decide +kernel, by decide +kernel, by decide +kernel, by decide +kernel⟩

end Component

end ScopedStyles
