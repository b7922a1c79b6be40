import ScopedStyles.Proofs.Host.Words
import ScopedStyles.Proofs.Text.Trim
import ScopedStyles.Stylesheet

/-!
# Plain stylesheets

Most stylesheets have no comments, no directives and no host selectors, and for such a stylesheet
all stages but the scoping of its rules do nothing. Each stage waits for words of its own: a text
without them goes through as it is (`Comment.strip_of_not_includes`, `Host.normalize_of_isPlain`).
-/

namespace ScopedStyles

open Text

namespace Text

theorem suffix_and_of_lastSuffix? {p : Text → Bool} {t found : Text}
    (h : lastSuffix? p t = some found) : found <:+ t ∧ p found := by
  induction t with
  | nil => simp [lastSuffix?] at h
  | cons c t ih =>
    simp only [lastSuffix?] at h
    split at h
    · rename_i s hs
      obtain rfl := Option.some.inj h
      obtain ⟨hsuffix, hp⟩ := ih hs
      exact ⟨hsuffix.trans (List.suffix_cons c t), hp⟩
    · split at h
      · rename_i hp
        obtain rfl := Option.some.inj h
        exact ⟨List.suffix_refl _, hp⟩
      · simp at h

end Text

/-! ## Comments -/

namespace Comment

theorem awaitsLiteral_reader : reader.AwaitsLiteral .exact opening := by
  intro t ht
  simp [reader, read, ht]

theorem strip_of_found_eq_nil {t : Text} (h : reader.found t = []) : strip t = t :=
  Reader.substitute_of_found_eq_nil h _

theorem strip_of_not_includes {t : Text} (h : ¬ includes .exact opening t) : strip t = t :=
  Reader.substitute_of_not_includes awaitsLiteral_reader h _

/-- A source map comment begins and ends as a comment does. -/
theorem exists_after?_of_isSourceMap {t : Text} (h : isSourceMap t) :
    ∃ inner, after? .exact opening t = some inner ∧ closing <:+ inner := by
  unfold isSourceMap at h
  split at h
  · rename_i rest hrest
    rw [Bool.and_eq_true, List.isSuffixOf_iff_suffix] at h
    simp only [afterSourceMapHead?, Option.bind_eq_bind, Option.bind_eq_some_iff] at hrest
    obtain ⟨inner, hinner, name, hname, hrest⟩ := hrest
    refine ⟨inner, hinner, h.2.trans ?_⟩
    exact (suffix_of_after? hrest).trans <| (trimStart_suffix name).trans <|
      (suffix_of_after? hname).trans (trimStart_suffix inner)
  · simp at h

/-- A stylesheet that ends with something else has no source map comment. -/
theorem sourceMap_of_not_suffix {t : Text} (h : ¬ closing <:+ trimEnd t) : sourceMap t = [] := by
  rw [sourceMap]
  cases hfound : lastSuffix? isSourceMap (trimEnd t) with
  | none => rfl
  | some found =>
    obtain ⟨hsuffix, hmap⟩ := suffix_and_of_lastSuffix? hfound
    obtain ⟨inner, hinner, hclosing⟩ := exists_after?_of_isSourceMap hmap
    exact absurd ((hclosing.trans (suffix_of_after? hinner)).trans hsuffix) h

/-- A source map comment is a comment. -/
theorem sourceMap_of_found_eq_nil {t : Text} (h : reader.found t = []) : sourceMap t = [] := by
  rw [sourceMap]
  cases hfound : lastSuffix? isSourceMap (trimEnd t) with
  | none => rfl
  | some found =>
    obtain ⟨hsuffix, hmap⟩ := suffix_and_of_lastSuffix? hfound
    obtain ⟨inner, hinner, hclosing⟩ := exists_after?_of_isSourceMap hmap
    have hbehind : found ++ blanksAtEnd t <:+ t := by
      obtain ⟨before, hbefore⟩ := hsuffix
      exact ⟨before, by rw [← List.append_assoc, hbefore, trimEnd_append_blanksAtEnd]⟩
    have hne : found ++ blanksAtEnd t ≠ [] := by
      rintro hnil
      rw [(List.append_eq_nil_iff.mp hnil).1] at hmap
      exact absurd hmap (by decide)
    have hpassed := Reader.passes_of_found_eq_nil h _ hbehind hne
    have hcloses : includes .exact closing (inner ++ blanksAtEnd t) :=
      includes_of_isInfix (hclosing.isInfix.trans (List.prefix_append inner _).isInfix)
        (by decide)
    rw [List.append_nil] at hpassed
    simp only [reader, read, after?_append hinner, Option.bind_some] at hpassed
    rw [includes, hpassed] at hcloses
    exact absurd hcloses (by decide)

/-- Behind a block no source map comment ends a stylesheet. -/
theorem sourceMap_of_closes_block {blanks : Text} (hblanks : ∀ c ∈ blanks, isBlank c) (t : Text) :
    sourceMap (t ++ '}' :: blanks) = [] := by
  refine sourceMap_of_not_suffix ?_
  rw [trimEnd_append_cons (by decide), trimEnd_eq_nil hblanks]
  rintro ⟨p, hp⟩
  have hlast := congrArg List.getLast? hp
  simp [closing] at hlast

end Comment

/-! ## Directives -/

namespace Directive

/-- What every keyword begins with. -/
def stem : Text := "polyfill-".toList

theorem awaitsLiteral_reader (d : Directive) : d.reader.AwaitsLiteral .anyCase stem := by
  intro t ht
  have hkeyword : ∃ w, d.keyword = stem ++ w := by
    cases d <;> exact ⟨_, rfl⟩
  obtain ⟨w, hw⟩ := hkeyword
  have hnone : after? .anyCase d.keyword t = none := by
    rw [hw, after?_append_literal, ht, Option.bind_none]
  simp [reader, read, hnone]

theorem found_of_not_includes {t : Text} (h : ¬ includes .anyCase stem t) (d : Directive) :
    d.reader.found t = [] :=
  Reader.found_of_not_includes d.awaitsLiteral_reader h

/-- Where no directive is found none is expanded. -/
theorem insert_of_found_eq_nil {t : Text} (h : ∀ d : Directive, d.reader.found t = []) :
    insert t = t := by
  rw [insert, Reader.substitute_of_found_eq_nil (h nextSelector),
    Reader.substitute_of_found_eq_nil (h rule)]

theorem extractUnscoped_of_found_eq_nil {t : Text} (h : ∀ d : Directive, d.reader.found t = []) :
    extractUnscoped t = (t, []) := by
  rw [extractUnscoped, Reader.substitute_of_found_eq_nil (h unscopedRule), h unscopedRule]
  rfl

end Directive

/-! ## The whole way -/

namespace Scope

/-- Without directives a stylesheet is stripped of its comments, normalized and scoped. -/
theorem encapsulate_of_found_eq_nil (s : Scope) (hscope : s.content ≠ []) {css : Text}
    (h : ∀ d : Directive, d.reader.found (Comment.strip css) = []) :
    s.encapsulate css =
      trim (s.rules (Host.normalize (Comment.strip css))) ++ Comment.sourceMap css := by
  rw [encapsulate, Directive.expand, Directive.insert_of_found_eq_nil h,
    Directive.extractUnscoped_of_found_eq_nil h]
  simp [hscope]

end Scope

end ScopedStyles
