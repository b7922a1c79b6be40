import ScopedStyles.Directive
import ScopedStyles.Rule.Walk
import ScopedStyles.Selector.Scope

/-!
# Stylesheets

`Scope.rules` scopes the selectors of a stylesheet: those of its style rules and of `@page`, and,
level by level, those in the bodies of `@media` and `@supports`. All other at-rules stay as they
are.

`Scope.encapsulate` is the whole way from a component's stylesheet to one for the document. Comments
go, directives are expanded, host selectors are normalized, selectors are scoped, unscoped rules are
added at the end, and a source map comment behind them.
-/

namespace ScopedStyles

open Text

namespace Rule

/-- Whether a rule has a selector that is scoped: a style rule, or `@page`. -/
def hasSelector (r : Rule) : Bool :=
  !(['@'].isPrefixOf r.selector) || "@page".toList.isPrefixOf r.selector

/-- Whether the rules in the body of an at-rule are those of the stylesheet under a condition. -/
def isConditional (r : Rule) : Bool :=
  "@media".toList.isPrefixOf r.selector || "@supports".toList.isPrefixOf r.selector

end Rule

namespace Scope

/-- A stylesheet with its selectors scoped. -/
def rules (s : Scope) (css : Text) : Text :=
  (Rule.items css).attach.flatMap fun
    | ⟨.copied text, _⟩ => text
    | ⟨.rule slot r, _⟩ =>
      slot.write
        (if r.hasSelector then { r with selector := s.selector r.selector }
        else if r.isConditional then { r with content := s.rules r.content }
        else r)
termination_by css.length
decreasing_by exact Rule.length_content_lt ‹_›

/-- A rule, scoped. -/
def rule (s : Scope) (r : Rule) : Rule :=
  if r.hasSelector then { r with selector := s.selector r.selector }
  else if r.isConditional then { r with content := s.rules r.content }
  else r

/-- A stylesheet is scoped rule by rule. -/
theorem rules_eq_map (s : Scope) (css : Text) : s.rules css = Rule.map s.rule css := by
  rw [rules, Rule.map]
  conv => rhs; rw [← List.attach_map_subtype_val (Rule.items css), List.flatMap_map]
  congr 1
  funext ⟨item, h⟩
  cases item <;> rfl

/-- A component's stylesheet, for the document. Without a content attribute only its host selectors
are written differently. -/
def encapsulate (s : Scope) (css : Text) : Text :=
  let (own, unscoped) := Directive.extractUnscoped (Directive.expand css)
  let own := Host.normalize own
  let own := if s.content = [] then own else s.rules own
  let whole := if unscoped = [] then own else trimEnd own ++ ['\n', '\n'] ++ unscoped
  trim whole ++ Comment.sourceMap css

end Scope

end ScopedStyles
