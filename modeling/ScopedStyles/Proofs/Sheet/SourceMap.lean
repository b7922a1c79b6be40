import ScopedStyles.Proofs.Comment.Trailing
import ScopedStyles.Proofs.Directive.Reading
import ScopedStyles.Proofs.Host.Blocks
import ScopedStyles.Proofs.Sheet.Ends

/-!
# Stylesheets with a source map

A source map comment behind a stylesheet is there behind the stylesheet for the document, which is
otherwise what it is without the comment (`Scope.encapsulate_append_sourceMap`). The blanks behind
the comment go with every stage and come off at the end, unless a host selector takes them for its
own: an argument that ends behind the last opening brace repeats all that follows it.
-/

namespace ScopedStyles

open Text

namespace Comment

variable {url blanks : Text}

/-- Without its comments a stylesheet with a source map is the stylesheet and the blanks behind
it. -/
theorem strip_append_sourceMap {body : Text} (hbody : AllClosed body)
    (hurl : ¬ includes .exact closing url) (hblanks : ∀ c ∈ blanks, isBlank c) :
    strip (body ++ (sourceMapOf url ++ blanks)) = strip body ++ blanks := by
  have hbars : Bars .exact opening (sourceMapOf url ++ blanks) := bars_cons (by decide) _
  have hslash : '/' ∉ blanks := not_mem_of_blanks hblanks (by decide)
  have hstar : ∀ c ∈ "# sourceMappingURL=".toList, ¬ Letters.exact.agree '*' c := by decide
  have hinner : ¬ includes .exact closing ("# sourceMappingURL=".toList ++ url) :=
    (includes_append_of_disagree hstar url).symm ▸ hurl
  have hread := read_text_append hinner blanks
  have hstrip : strip blanks = blanks :=
    strip_of_not_includes (not_includes_of_not_mem (by decide) hslash)
  rw [hbody.strip_append hbars, strip, strip, sourceMapOf, Reader.substitute_of_read hread,
    List.nil_append, ← strip, ← strip, hstrip]

end Comment

namespace Scope

theorem trim_congr {x y : Text} (h : trimEnd x = trimEnd y) : trim x = trim y := by
  have htrim : ∀ x : Text, trim x = trim (trimEnd x) := by
    intro x
    conv => lhs; rw [← trimEnd_append_blanksAtEnd x]
    exact trim_append_of_blanks (fun c hc => isBlank_of_mem_blanksAtEnd hc) _
  rw [htrim x, htrim y, h]

/-- A source map comment behind a stylesheet goes through as it is, and the blanks behind it leave
no trace. -/
theorem encapsulate_append_sourceMap (s : Scope) {body url blanks : Text}
    (hbody : Comment.AllClosed body) (hlast : (trimEnd body).getLast? = some '}')
    (hown : Host.IsSettled (Directive.extractUnscoped (Directive.expand body)).1)
    (hne : url ≠ []) (hopening : ¬ includes .exact Comment.opening url)
    (hclosing : ¬ includes .exact Comment.closing url) (hblanks : ∀ c ∈ blanks, isBlank c) :
    s.encapsulate (body ++ (Comment.sourceMapOf url ++ blanks)) =
      s.encapsulate body ++ Comment.sourceMapOf url := by
  have hnone : Comment.sourceMap body = [] := by
    obtain ⟨t, ht⟩ := List.getLast?_eq_some_iff.mp hlast
    have hsplit := trimEnd_append_blanksAtEnd body
    rw [ht, List.append_assoc, List.singleton_append] at hsplit
    rw [← hsplit]
    exact Comment.sourceMap_of_closes_block (fun c hc => isBlank_of_mem_blanksAtEnd hc) t
  have hexpand : Directive.expand (body ++ (Comment.sourceMapOf url ++ blanks)) =
      Directive.expand body ++ blanks := by
    rw [Directive.expand, Directive.expand, Comment.strip_append_sourceMap hbody hclosing hblanks,
      Directive.insert_append_of_blanks hblanks]
  rw [encapsulate, encapsulate, hexpand, Directive.extractUnscoped_append_of_blanks hblanks,
    Comment.sourceMap_append hne hopening hblanks, hnone]
  generalize Directive.extractUnscoped (Directive.expand body) = stages at hown ⊢
  obtain ⟨own, unscoped⟩ := stages
  simp only [hown.normalize_append hblanks, List.append_nil]
  have hrules : trimEnd (if s.content = [] then Host.normalize own ++ blanks
      else s.rules (Host.normalize own ++ blanks)) =
        trimEnd (if s.content = [] then Host.normalize own else s.rules (Host.normalize own)) := by
    split
    · exact trimEnd_append_of_blanks hblanks _
    · exact s.trimEnd_rules_append hblanks _
  congr 1
  split
  · exact trim_congr hrules
  · rw [hrules]

/-- A comment, a host selector, and blanks behind the source map. -/
theorem encapsulate_append_sourceMap_host :
    Scope.encapsulate { content := "c".toList, host := "h".toList }
      ("/* a */ :host(.b) d \x7be: f\x7d\n".toList ++
        (Comment.sourceMapOf "x".toList ++ "\n\n".toList)) =
      "[h].b   d[c] \x7be: f\x7d/*# sourceMappingURL=x*/".toList := by
  refine (encapsulate_append_sourceMap _ (by decide +kernel) (by decide +kernel) ?_ (by decide)
    (by decide) (by decide) (by decide)).trans (by decide +kernel)
  exact .inr ⟨" :host(.b) d ".toList, "e: f\x7d\n".toList, by decide +kernel, by decide +kernel,
    by decide⟩

/-- The last brace can stand in the argument of a host selector. What follows the argument then goes
to the end, and is written once for each alternative with the blanks. -/
theorem encapsulate_repeats_blanks :
    ¬ ∀ (s : Scope) (body url blanks : Text), Comment.AllClosed body →
      (trimEnd body).getLast? = some '}' →
      (Lacks Host.names (Directive.extractUnscoped (Directive.expand body)).1 ∨
        ∃ a z, (Directive.extractUnscoped (Directive.expand body)).1 = a ++ '{' :: z ∧ '{' ∉ z ∧
          Lacks Host.names z) →
      url ≠ [] → ¬ includes .exact Comment.opening url → ¬ includes .exact Comment.closing url →
      (∀ c ∈ blanks, isBlank c) →
        s.encapsulate (body ++ (Comment.sourceMapOf url ++ blanks)) =
          s.encapsulate body ++ Comment.sourceMapOf url := by
  intro h
  have hsame := h { content := "c".toList, host := "h".toList } ":host(a,b\x7bc)\x7d".toList
    "x".toList "\n".toList (by decide +kernel) (by decide +kernel)
    (.inr ⟨":host(a,b".toList, "c)\x7d".toList, by decide +kernel, by decide, by decide +kernel⟩)
    (by decide) (by decide) (by decide) (by decide)
  exact absurd hsame (by decide +kernel)

end Scope

end ScopedStyles
