import Mathlib.Data.List.Permutation
import ScopedStyles.Proofs.Selector.Pieces
import ScopedStyles.Proofs.Sheet.Walk

/-!
# Scoping a sheet

Scoping a stylesheet rewrites the preludes of its sheet and nothing else: the text of the scoped
sheet is what comes out, for every text whose preludes are not blank, whether its braces match or
not.
-/

namespace ScopedStyles

open Text

/-! ## Preludes -/

/-- A prelude that is not blank stands between its blanks. -/
theorem HasInk.blanks_append_trim {p : Text} (h : HasInk p) :
    p.takeWhile isBlank ++ trim p ++ blanksAtEnd p = p := by
  rw [← h.blanksAtEnd_trimStart, trim, List.append_assoc, trimEnd_append_blanksAtEnd, trimStart,
    List.takeWhile_append_dropWhile]

theorem OpensLevel.isDirective {p : Text} (h : OpensLevel p) : IsDirective p := by
  rcases h with h | h
  · refine ⟨List.IsPrefix.trans (by decide) h, fun hpage => ?_⟩
    exact absurd (List.prefix_of_prefix_length_le hpage h (by decide)) (by decide)
  · refine ⟨List.IsPrefix.trans (by decide) h, fun hpage => ?_⟩
    exact absurd (List.prefix_of_prefix_length_le hpage h (by decide)) (by decide)

namespace Rule

theorem hasSelector_iff {p body : Text} : hasSelector ⟨trim p, body⟩ ↔ ¬ IsDirective p := by
  simp only [hasSelector, IsDirective, Bool.or_eq_true, Bool.not_eq_true',
    List.isPrefixOf_iff_prefix, Bool.eq_false_iff, ne_eq]
  by_cases hat : ['@'] <+: trim p
  · simp [hat]
  · simp [hat]

theorem isConditional_iff {p body : Text} : isConditional ⟨trim p, body⟩ ↔ OpensLevel p := by
  simp only [isConditional, OpensLevel, Bool.or_eq_true, List.isPrefixOf_iff_prefix]

end Rule

/-! ## Rules -/

namespace Scope

theorem prelude_of_isDirective (s : Scope) {p : Text} (h : IsDirective p) : s.prelude p = p :=
  if_pos h

/-- A scoped prelude has no character but those of the prelude and those that the scope brings. -/
theorem not_mem_prelude {s : Scope} {p : Text} {c : Char} (hp : c ∉ p) (hs : ¬ s.Brings c) :
    c ∉ s.prelude p := by
  unfold prelude
  split
  · exact hp
  · simp only [List.mem_append, not_or]
    refine ⟨⟨fun hc => hp ((List.takeWhile_prefix _).subset hc), fun hc => ?_⟩, fun hc => ?_⟩
    · exact (mem_selector hc).elim (fun hc => hp ((trim_isInfix p).subset hc)) hs
    · exact hp (List.mem_reverse.mp ((List.takeWhile_prefix _).subset (List.mem_reverse.mp hc)))

@[simp] theorem rules_nil (s : Scope) : s.rules [] = [] := by
  rw [rules_eq_map, Rule.map, Rule.items_nil, List.flatMap_nil]

/-- A scoped rule has a scoped selector, or a scoped body, or is what it was. -/
theorem rule_eq (s : Scope) (p body : Text) :
    s.rule ⟨trim p, body⟩ =
      ⟨if IsDirective p then trim p else s.selector (trim p),
        if OpensLevel p then s.rules body else body⟩ := by
  by_cases hdirective : IsDirective p
  · have hselector : ¬ Rule.hasSelector ⟨trim p, body⟩ :=
      fun h => Rule.hasSelector_iff.mp h hdirective
    by_cases hlevel : OpensLevel p
    · simp [rule, hselector, Rule.isConditional_iff, hdirective, hlevel]
    · simp [rule, hselector, Rule.isConditional_iff, hdirective, hlevel]
  · have hlevel : ¬ OpensLevel p := fun h => hdirective h.isDirective
    simp [rule, Rule.hasSelector_iff, hdirective, hlevel]

/-- A rule is written back with its prelude scoped, and with its body scoped if that is a level. -/
theorem write_rule (s : Scope) {p : Text} (hink : HasInk p) (opening body close : Text) :
    Rule.Slot.write ⟨p.takeWhile isBlank, blanksAtEnd p ++ opening, close⟩
        (s.rule ⟨trim p, body⟩) =
      s.prelude p ++ (opening ++ ((if OpensLevel p then s.rules body else body) ++ close)) := by
  rw [rule_eq, prelude]
  by_cases hdirective : IsDirective p
  · rw [if_pos hdirective, if_pos hdirective]
    calc p.takeWhile isBlank ++ trim p ++ (blanksAtEnd p ++ opening) ++
          (if OpensLevel p then s.rules body else body) ++ close
        = p.takeWhile isBlank ++ trim p ++ blanksAtEnd p ++
            (opening ++ ((if OpensLevel p then s.rules body else body) ++ close)) := by simp
      _ = p ++ (opening ++ ((if OpensLevel p then s.rules body else body) ++ close)) := by
        rw [hink.blanks_append_trim]
  · simp [Rule.Slot.write, hdirective]

theorem rules_eq_flatMap (s : Scope) (t : Text) :
    s.rules t = (Rule.items t).flatMap (Rule.Item.write s.rule) := by
  rw [rules_eq_map, Rule.map]

theorem rules_run (s : Scope) {p : Text} (hp : IsRun p) : s.rules p = p := by
  rw [rules_eq_flatMap, Rule.items_run hp]
  split
  · rename_i hnil
    rw [hnil, List.flatMap_nil]
  · rw [List.flatMap_singleton, Rule.Item.write]

theorem rules_semicolon (s : Scope) {p : Text} (hp : IsRun p) (hink : HasInk p) (t : Text) :
    s.rules (p ++ ';' :: t) = s.prelude p ++ ';' :: s.rules t := by
  have hwrite := s.write_rule hink [] [] [';']
  rw [List.append_nil, rules_nil, ite_self] at hwrite
  rw [rules_eq_flatMap, Rule.items_semicolon hp hink, List.flatMap_cons, ← rules_eq_flatMap,
    Rule.Item.write, hwrite]
  simp

theorem rules_close (s : Scope) {p : Text} (hp : IsRun p) (t : Text) :
    s.rules (p ++ '}' :: t) = p ++ '}' :: s.rules t := by
  rw [rules_eq_flatMap, Rule.items_close hp, List.flatMap_cons, ← rules_eq_flatMap,
    Rule.Item.write]
  simp

theorem rules_open (s : Scope) {p body close t : Text} (hp : IsRun p) (hink : HasInk p)
    (hclose : Closes body close t) :
    s.rules (p ++ '{' :: (body ++ (close ++ t))) =
      s.prelude p ++
        '{' :: ((if OpensLevel p then s.rules body else body) ++ (close ++ s.rules t)) := by
  rw [rules_eq_flatMap, Rule.items_open hp hink hclose, List.flatMap_cons, ← rules_eq_flatMap,
    Rule.Item.write, s.write_rule hink]
  simp

end Scope

namespace Sheet

/-- Level by level, the text of a scoped sheet is the scoped text. -/
theorem Reads.rules_eq {sheet : Sheet} {t : Text} (h : sheet.Reads t) (hp : sheet.HasPreludes)
    (s : Scope) : s.rules t = (sheet.scope s).text := by
  induction h with
  | fragment hrun => rw [s.rules_run hrun, scope, text]
  | statement hrun hrest ih => rw [s.rules_semicolon hrun hp.1, ih hp.2, scope, text]
  | stray hrun hrest ih => rw [s.rules_close hrun, ih hp, scope, text]
  | block hrun hlevel hclose hrest ih =>
    rw [s.rules_open hrun hp.1 hclose, if_neg hlevel, ih hp.2, scope, text]
  | group hrun hlevel hclose hbody hrest ihbody ih =>
    rw [s.rules_open hrun hp.1 hclose, if_pos hlevel, ihbody hp.2.1, ih hp.2.2, scope, text,
      s.prelude_of_isDirective hlevel.isDirective]

/-- Every text has exactly one structure, and to scope its rules is to scope that structure. -/
theorem rules_eq_text_scope (css : Text) :
    (∃! sheet : Sheet, sheet.Reads css) ∧
      ∀ sheet : Sheet, sheet.Reads css → sheet.HasPreludes →
        ∀ s : Scope, s.rules css = (sheet.scope s).text :=
  ⟨existsUnique_reads css, fun _ h hp s => h.rules_eq hp s⟩

/-- A level with two blocks, and behind it a brace too many, a statement and a fragment. -/
theorem rules_nested :
    ∀ s : Scope, s.rules "@media p \x7ba \x7bb\x7d c,d \x7be\x7d \x7d \x7d f;g".toList =
      (Sheet.scope s
        (.group "@media p ".toList
          (.block "a ".toList "b".toList "\x7d ".toList
            (.block "c,d ".toList "e".toList "\x7d ".toList (.fragment [])))
          "\x7d ".toList (.stray [] (.statement " f".toList (.fragment "g".toList))))).text := by
  refine (rules_eq_text_scope
    "@media p \x7ba \x7bb\x7d c,d \x7be\x7d \x7d \x7d f;g".toList).2 _ ?_ ?_
  · have hread : Sheet.read "@media p \x7ba \x7bb\x7d c,d \x7be\x7d \x7d \x7d f;g".toList =
        .group "@media p ".toList
          (.block "a ".toList "b".toList "\x7d ".toList
            (.block "c,d ".toList "e".toList "\x7d ".toList (.fragment [])))
          "\x7d ".toList (.stray [] (.statement " f".toList (.fragment "g".toList))) := by cbv
    rw [← hread]
    exact reads_read _
  · exact ⟨⟨'@', by decide, by decide⟩,
      ⟨⟨'a', by decide, by decide⟩, ⟨'c', by decide, by decide⟩, trivial⟩,
      ⟨'f', by decide, by decide⟩, trivial⟩

end Sheet

end ScopedStyles
