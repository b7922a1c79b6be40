import ScopedStyles.Compiled
import ScopedStyles.Proofs.Comment.SourceMap

/-!
# Stylesheets without imports

A stylesheet that imports nothing is compiled by taking its comments out, all but those that say
where the source is, and then scoping what is left, which loses the others
(`Scope.encapsulate_stripUnlessSource`).
-/

namespace ScopedStyles

open Text

namespace Import

/-- What begins an import statement. -/
def keyword : Text := "@import".toList

theorem awaitsLiteral_reader : reader.AwaitsLiteral .exact keyword := by
  intro t h
  have hafter : after? .exact "@import".toList t = none := h
  simp only [reader, read, afterKeyword?, hafter, Option.bind_eq_bind, Option.bind_none]

/-- A stylesheet whose comments can go without an import coming up is left as it is apart from
them. -/
theorem extract_of_not_includes (base : Text) {css : Text} (hcss : ¬ includes .exact keyword css)
    (hstrip : ¬ includes .exact keyword (Comment.strip css)) :
    extract base css = { style := Comment.stripUnlessSource css, urls := [] } := by
  have hnone : ¬ includes .exact keyword (Comment.stripUnlessSource css) := fun h =>
    (Comment.includes_of_includes_stripUnlessSource (by decide) (by decide) h).elim hcss hstrip
  rw [extract, Reader.substitute_of_not_includes awaitsLiteral_reader hnone,
    Reader.found_of_not_includes awaitsLiteral_reader hnone]
  rfl

end Import

namespace Scope

/-- Taking comments out first makes no difference, if none are made by that and the source map
comment is not among those that go. -/
theorem encapsulate_stripUnlessSource (s : Scope) {css : Text} (hcss : Comment.IsSetOff css)
    (hmap : Comment.KeepsMap css) :
    s.encapsulate (Comment.stripUnlessSource css) = s.encapsulate css := by
  have hexpand : Directive.expand (Comment.stripUnlessSource css) = Directive.expand css :=
    congrArg Directive.insert hcss.strip_stripUnlessSource
  rw [encapsulate, hexpand, hcss.sourceMap_stripUnlessSource hmap]
  rfl

end Scope

namespace Compiled

/-- A stylesheet that imports nothing depends on nothing, and its only style is the stylesheet,
scoped. Comments that may say where the source is count as far as they are kept. -/
theorem ofStylesheet_importFree (s : Scope) (url css : Text)
    (hcss : ¬ includes .exact Import.keyword css)
    (hstrip : ¬ includes .exact Import.keyword (Comment.strip css)) :
    (ofStylesheet s true url css).dependencies = [] ∧
      (ofStylesheet s true url css).styles = [s.encapsulate (Comment.stripUnlessSource css)] ∧
      (Comment.IsSetOff css → Comment.KeepsMap css →
        (ofStylesheet s true url css).styles = [s.encapsulate css]) := by
  have hextract := Import.extract_of_not_includes url hcss hstrip
  have hstyles : (ofStylesheet s true url css).styles =
      [s.encapsulate (Comment.stripUnlessSource css)] := by
    simp [ofStylesheet, ofStyles, hextract]
  refine ⟨?_, hstyles, fun hset hmap => ?_⟩
  · simp [ofStylesheet, ofStyles, hextract]
  · rw [hstyles, s.encapsulate_stripUnlessSource hset hmap]

/-- A source map comment goes through behind another comment, with blanks at the end. -/
theorem ofStylesheet_importFree_sourceMap :
    (ofStylesheet { content := "c".toList, host := "h".toList } true "a.css".toList
      "a \x7b\x7d/* b *//*# sourceMappingURL=x */\n".toList).styles =
      ["a[c] \x7b\x7d/*# sourceMappingURL=x */".toList] := by
  have hstyles := (ofStylesheet_importFree { content := "c".toList, host := "h".toList }
    "a.css".toList "a \x7b\x7d/* b *//*# sourceMappingURL=x */\n".toList (by decide +kernel)
    (by decide +kernel)).2.2
  refine (hstyles (by decide +kernel) fun _ => ?_).trans (by decide +kernel)
  exact ⟨"a \x7b\x7d".toList.map .plain ++ [.found " b ".toList], "# sourceMappingURL=x ".toList,
    ['\n'], by decide +kernel, by decide, by decide, by decide +kernel⟩

/-- A source map comment with a blank in front of the `#` is not kept. -/
theorem ofStylesheet_loses_sourceMap :
    ¬ ∀ (s : Scope) (url css : Text), ¬ includes .exact Import.keyword css →
      ¬ includes .exact Import.keyword (Comment.strip css) →
        (ofStylesheet s true url css).dependencies = [] ∧
          (ofStylesheet s true url css).styles = [s.encapsulate css] := by
  intro h
  obtain ⟨-, hstyles⟩ := h { content := "c".toList, host := "h".toList } "a.css".toList
    "a \x7b\x7d/* # sourceMappingURL=x */".toList (by decide +kernel) (by decide +kernel)
  exact absurd hstyles (by decide +kernel)

end Compiled

end ScopedStyles
