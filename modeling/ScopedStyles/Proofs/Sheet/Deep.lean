import ScopedStyles.Proofs.Selector.Respaced
import ScopedStyles.Proofs.Sheet.Styles

/-!
# Deep combinators in preludes

What stands before a deep combinator is scoped as if it were a selector by itself, and what follows
stands behind it as it was, with a space between (`Scope.rules_deep`). This holds up to the number
of blanks, and not for all blanks before the combinator: they are not cut off before the last
compound selector is scoped, so that a tab keeps the content attribute away from it
(`Scope.rules_deep_tab`).
-/

namespace ScopedStyles

open Text Selector

/-! ## Runs of blanks -/

namespace Text

variable {b b' x y y' : Text}

/-- A text with a space for each run of blanks. -/
def collapse : Text → Text
  | [] => []
  | c :: t => if isBlank c then ' ' :: trimStart (collapse t) else c :: collapse t

theorem collapse_append (h : collapse y = collapse y') (x : Text) :
    collapse (x ++ y) = collapse (x ++ y') := by
  induction x with
  | nil => exact h
  | cons c x ih => rw [List.cons_append, List.cons_append, collapse, collapse, ih]

theorem collapse_blanks (hb : ∀ c ∈ b, isBlank c) (hne : b ≠ []) (u : Text) :
    collapse (b ++ u) = ' ' :: trimStart (collapse u) := by
  have hspace : ∀ t : Text, trimStart (' ' :: t) = trimStart t := fun t => rfl
  induction b with
  | nil => exact absurd rfl hne
  | cons c b ih =>
    rw [List.forall_mem_cons] at hb
    rw [List.cons_append, collapse, if_pos hb.1]
    cases b with
    | nil => rfl
    | cons d b => rw [ih hb.2 (List.cons_ne_nil d b), hspace, trimStart_trimStart]

/-- Blanks before a space do not matter. -/
theorem collapse_append_space (hb : ∀ c ∈ b, isBlank c) (hb' : ∀ c ∈ b', isBlank c) (u : Text) :
    collapse (b ++ ' ' :: u) = collapse (b' ++ ' ' :: u) := by
  have hone : ∀ {b : Text}, (∀ c ∈ b, isBlank c) →
      collapse (b ++ ' ' :: u) = ' ' :: trimStart (collapse u) := by
    intro b hb
    have hspaced : ∀ c ∈ b ++ [' '], isBlank c :=
      List.forall_mem_append.mpr ⟨hb, List.forall_mem_singleton.mpr (by decide)⟩
    rw [← collapse_blanks hspaced (by simp) u, List.append_assoc, List.singleton_append]
  rw [hone hb, hone hb']

end Text

/-- What stands before a text that is not blank does not matter at its end. -/
theorem HasInk.ends_append {q : Text} (hq : HasInk q) (x : Text) :
    trimEnd (x ++ q) = x ++ trimEnd q ∧ blanksAtEnd (x ++ q) = blanksAtEnd q := by
  obtain ⟨c, hmem, hc⟩ := hq
  obtain ⟨q₁, q₂, rfl⟩ := List.append_of_mem hmem
  rw [← List.append_assoc, trimEnd_append_cons hc, trimEnd_append_cons hc,
    blanksAtEnd_append_cons hc, blanksAtEnd_append_cons hc]
  exact ⟨by simp, rfl⟩

/-- What stands behind a text that is not blank does not matter at its beginning. -/
theorem HasInk.begins_append {p : Text} (hp : HasInk p) (y : Text) :
    trimStart (p ++ y) = trimStart p ++ y ∧
      (p ++ y).takeWhile isBlank = p.takeWhile isBlank := by
  refine ⟨trimStart_append hp.trimStart_ne_nil y, ?_⟩
  obtain ⟨c, u, hcu, hc⟩ := hp.exists_trimStart
  have hblanks : ∀ d ∈ p.takeWhile isBlank, isBlank d := fun _ hd => List.mem_takeWhile_imp hd
  have hsplit : p = p.takeWhile isBlank ++ c :: u := by
    rw [← hcu, trimStart, List.takeWhile_append_dropWhile]
  conv => lhs; rw [hsplit]
  rw [List.append_assoc, List.takeWhile_append_of_pos hblanks, List.cons_append,
    List.takeWhile_cons_of_neg hc, List.append_nil]

/-- Between two texts that are not blank nothing is trimmed. -/
theorem HasInk.trim_append_append {p q : Text} (hp : HasInk p) (hq : HasInk q) (m : Text) :
    trim (p ++ (m ++ q)) = trimStart p ++ (m ++ trimEnd q) := by
  rw [trim, (hp.begins_append _).1, ← List.append_assoc, (hq.ends_append _).1, List.append_assoc]

/-- A prelude is that of an at-rule by its first character. -/
theorem HasInk.not_isDirective_append {p : Text} (hp : HasInk p) (h : ¬ ['@'] <+: trim p)
    (y : Text) : ¬ IsDirective (p ++ y) := by
  obtain ⟨c, u, hcu, hc⟩ := hp.exists_trimStart
  have hself : trim p = c :: trimEnd u := by
    rw [trim, hcu]
    exact trimEnd_append_cons hc [] u
  have hwhole : trim (p ++ y) = c :: trimEnd (u ++ y) := by
    rw [trim, (hp.begins_append y).1, hcu]
    exact trimEnd_append_cons hc [] (u ++ y)
  rintro ⟨hat, -⟩
  rw [hwhole, List.cons_prefix_cons] at hat
  rw [hself, List.cons_prefix_cons] at h
  exact h ⟨hat.1, List.nil_prefix⟩

namespace Scope

variable {s : Scope} {p q x b : Text} {w : Letters × Text}

/-! ## Blanks behind the part inside the component -/

/-- Blanks stay behind the last compound selector, if it has pseudo-classes or is empty. -/
theorem compound_append_of_blanks (hmarker : ¬ includes .anyCase Host.marker (x ++ b))
    (hb : ∀ c ∈ b, isBlank c) (h : x = [] ∨ ':' ∈ x) :
    ∃ b', (∀ c ∈ b', isBlank c) ∧ s.compound (x ++ b) = s.compound x ++ b' := by
  rcases h with rfl | hcolon
  · have htrim : trim b = [] := trim_append_of_blanks hb []
    refine ⟨[], fun c hc => absurd hc List.not_mem_nil, ?_⟩
    rw [List.nil_append, List.append_nil, compound, if_pos htrim]
    rfl
  · obtain ⟨x₁, x₂, rfl, hbefore⟩ := List.eq_append_cons_of_mem hcolon
    have hrun : ∀ d ∈ x₁, (d != ':') = true := by
      intro d hd
      rw [bne_iff_ne]
      rintro rfl
      exact hbefore hd
    have hne : trim (x₁ ++ ':' :: x₂) ≠ [] := by
      rw [trim_append_cons (by decide)]
      simp
    have hmarker' : ¬ includes .anyCase Host.marker (x₁ ++ ':' :: x₂) :=
      not_includes_of_isInfix (List.prefix_append _ b).isInfix hmarker
    refine ⟨b, hb, ?_⟩
    rw [compound_of_not_includes (by rwa [trim_append_of_blanks hb]) hmarker,
      compound_of_not_includes hne hmarker', insertAttribute, insertAttribute]
    simp only [List.append_assoc, List.cons_append, List.takeWhile_append_of_pos hrun,
      List.dropWhile_append_of_pos hrun]
    simp

/-- Blanks behind a selector are a combinator if there is a space among them, and belong to the last
compound selector otherwise. -/
theorem inside_append_of_blanks (hmarker : ¬ includes .anyCase Host.marker (x ++ b))
    (hhead : ∀ c ∈ x.head?, ¬ isBlank c) (hlast : ∀ c ∈ x.getLast?, ¬ isBlank c)
    (hb : ∀ c ∈ b, isBlank c) (h : ' ' ∈ b ∨ (chain x).last = [] ∨ ':' ∈ (chain x).last) :
    ∃ b', (∀ c ∈ b', isBlank c) ∧ s.inside (x ++ b) = s.inside x ++ b' := by
  have hempty : s.inside [] = [] := inside_of_run fun _ hd => absurd hd List.not_mem_nil
  induction x using chain_induction with
  | run k hk =>
    by_cases hspace : ' ' ∈ b
    · have htrim : trim k = k := by rw [trim, trimStart_eq_self hhead, trimEnd_eq_self hlast]
      have hgap := @inside_append_gap s _ _ hk hb hspace []
      rw [List.append_nil, trimStart, List.dropWhile_nil, hempty, List.append_nil, htrim] at hgap
      exact ⟨"   ".toList, by decide, by rw [hgap, inside_of_run hk]⟩
    · have hrun : ∀ d ∈ k ++ b, ¬ isCombinator d :=
        List.forall_mem_append.mpr ⟨hk, not_isCombinator_of_blanks hb hspace⟩
      have hend := h.resolve_left hspace
      rw [chain_of_run hk] at hend
      rw [inside_of_run hrun, inside_of_run hk]
      exact compound_append_of_blanks hmarker hb hend
  | link k c t hk hc ih =>
    rw [List.append_assoc, List.cons_append, inside_append_cons hk hc, inside_append_cons hk hc]
    by_cases hblank : trimStart t = []
    · have hboth : ∀ d ∈ t ++ b, isBlank d :=
        List.forall_mem_append.mpr ⟨List.dropWhile_eq_nil_iff.mp hblank, hb⟩
      have hnone : trimStart (t ++ b) = [] := List.dropWhile_eq_nil_iff.mpr hboth
      exact ⟨[], fun d hd => absurd hd List.not_mem_nil, by rw [hblank, hnone, List.append_nil]⟩
    · have hsuffix := trimStart_suffix_append_cons k c t
      have hsuffix' : trimStart t ++ b <:+ k ++ c :: t ++ b := by
        obtain ⟨u, hu⟩ := hsuffix
        exact ⟨u, by rw [← List.append_assoc, hu]⟩
      rw [chain_append_cons hk hc] at h
      obtain ⟨b', hb', hrest⟩ := ih (not_includes_of_isInfix hsuffix'.isInfix hmarker)
        (fun _ => not_isBlank_of_head?_trimStart) (not_isBlank_of_suffix hlast hsuffix) h
      exact ⟨b', hb', by rw [trimStart_append hblank, hrest]; simp⟩

/-- The blanks at the end of a text do not change how it is scoped: there are none, or the scope
does not end with a blank, and in strict mode they are a combinator or stay behind the last compound
selector. -/
def EndsCleanly (s : Scope) (p : Text) : Prop :=
  blanksAtEnd p = [] ∨
    (∃ c ∈ s.content.getLast?, ¬ isBlank c) ∧
      (s.mode = .strict →
        ' ' ∈ blanksAtEnd p ∨ (chain (trim p)).last = [] ∨ ':' ∈ (chain (trim p)).last)

theorem shallow_trimStart (hmarker : ¬ includes .anyCase Host.marker p) (hink : HasInk p)
    (h : s.EndsCleanly p) :
    ∃ b', (∀ c ∈ b', isBlank c) ∧ s.shallow (trimStart p) = s.shallow (trim p) ++ b' := by
  have hsplit : trimStart p = trim p ++ blanksAtEnd p := by
    rw [← hink.blanksAtEnd_trimStart, trim, trimEnd_append_blanksAtEnd]
  rcases h with hnone | ⟨hscope, hstrict⟩
  · exact ⟨[], fun c hc => absurd hc List.not_mem_nil,
      by rw [hsplit, hnone, List.append_nil, List.append_nil]⟩
  have hblanks : ∀ c ∈ blanksAtEnd p, isBlank c := fun _ => isBlank_of_mem_blanksAtEnd
  have hstart : ¬ includes .anyCase Host.marker (trimStart p) :=
    not_includes_of_isInfix (trimStart_suffix p).isInfix hmarker
  have htrim : ¬ includes .anyCase Host.marker (trim p) :=
    not_includes_of_isInfix (trim_isInfix p) hmarker
  have hscoped := isScoped_append_of_blanks hscope hblanks (trim p)
  rw [hsplit] at hstart ⊢
  cases hmode : s.mode with
  | strict =>
    rw [shallow_strict hmode hstart, shallow_strict hmode htrim, hscoped]
    split
    · exact ⟨_, hblanks, rfl⟩
    · exact inside_append_of_blanks hstart (fun _ => not_isBlank_of_head?_trim)
        (fun _ => not_isBlank_of_getLast?_trimEnd) hblanks (hstrict hmode)
  | loose =>
    refine ⟨_, hblanks, ?_⟩
    rw [shallow_loose hmode hstart, shallow_loose hmode htrim, hscoped]
    split
    · rfl
    · simp

/-! ## Selectors with a deep combinator -/

/-- A text that is a part of a selector: it is not blank, and ends neither a prelude nor an
alternative. -/
@[mk_iff]
structure IsPart (t : Text) : Prop where
  run : IsRun t
  ink : HasInk t
  comma : ',' ∉ t

instance (t : Text) : Decidable (IsPart t) := decidable_of_iff' _ (isPart_iff t)

/-- A prelude without commas is one alternative. -/
theorem prelude_of_not_mem (hcomma : ',' ∉ p) (hstyle : ¬ IsDirective p) :
    s.prelude p = p.takeWhile isBlank ++ (s.alternative p ++ blanksAtEnd p) := by
  rw [prelude, if_neg hstyle, selector_trim, selector, split_of_not_mem hcomma, List.map_singleton,
    List.intercalate_singleton, List.append_assoc]

theorem alternative_of_lacks (h : Lacks deep p) : s.alternative p = s.shallow (trim p) := by
  have hone : s.alternative p = [' '].intercalate [s.shallow (trim p)] := by
    rw [alternative_eq_intercalate, innerPart, outerParts,
      between_of_lacks (h.of_isInfix (trim_isInfix p))]
  rw [hone, List.intercalate_singleton]

/-- A selector is scoped up to its first deep combinator, with the blanks before that. -/
theorem alternative_append_deep (hw : w ∈ deep) (hp : HasInk p) (hq : HasInk q)
    (hfirst : Lacks deep (p ++ w.2.dropLast)) (hlacks : Lacks deep q) :
    s.alternative (p ++ (w.2 ++ q)) = s.shallow (trimStart p) ++ ' ' :: trimEnd q := by
  have hsuffix : trimStart p ++ w.2.dropLast <:+ p ++ w.2.dropLast := by
    obtain ⟨u, hu⟩ := trimStart_suffix p
    exact ⟨u, by rw [← List.append_assoc, hu]⟩
  have hbetween := between_append_deep hw (hfirst.of_isInfix hsuffix.isInfix)
    (hlacks.of_isInfix (trimEnd_isPrefix q).isInfix)
  rw [alternative_eq_intercalate, innerPart, outerParts, hp.trim_append_append hq, hbetween,
    List.intercalate_cons_cons, List.intercalate_singleton, List.append_assoc,
    List.singleton_append]

theorem IsPart.append_deep (hw : w ∈ deep) (hp : IsPart p) (hq : IsPart q) :
    IsPart (p ++ (w.2 ++ q)) := by
  have hword : ∀ w ∈ deep, IsRun w.2 ∧ ',' ∉ w.2 := by decide +kernel
  obtain ⟨hrun, hcomma⟩ := hword w hw
  obtain ⟨c, hmem, hc⟩ := hp.ink
  exact ⟨List.forall_mem_append.mpr ⟨hp.run, List.forall_mem_append.mpr ⟨hrun, hq.run⟩⟩,
    ⟨c, List.mem_append_left _ hmem, hc⟩, by simp [hp.comma, hcomma, hq.comma]⟩

theorem prelude_append_deep (hw : w ∈ deep) (hp : IsPart p) (hq : IsPart q)
    (hfirst : Lacks deep (p ++ w.2.dropLast)) (hlacks : Lacks deep q)
    (hstyle : ¬ ['@'] <+: trim p) :
    s.prelude (p ++ (w.2 ++ q)) =
      p.takeWhile isBlank ++ (s.shallow (trimStart p) ++ ' ' :: q) := by
  obtain ⟨-, hblanks⟩ := hq.ink.ends_append (p ++ w.2)
  rw [List.append_assoc] at hblanks
  rw [prelude_of_not_mem (hp.append_deep hw hq).comma (hp.ink.not_isDirective_append hstyle _),
    (hp.ink.begins_append _).2, hblanks, alternative_append_deep hw hp.ink hq.ink hfirst hlacks,
    List.append_assoc, List.cons_append, trimEnd_append_blanksAtEnd]

theorem IsPart.rules_eq {body close rest : Text} (hp : IsPart p) (hstyle : ¬ IsDirective p)
    (hclose : Closes body close rest) :
    s.rules (p ++ '{' :: (body ++ (close ++ rest))) =
      s.prelude p ++ '{' :: (body ++ (close ++ s.rules rest)) := by
  rw [s.rules_open hp.run hp.ink hclose, if_neg fun hlevel => hstyle hlevel.isDirective]

/-- A deep combinator is a clean boundary where it is the first one of its selector, unless the
blanks before it change how the selector is scoped: what stands before it is scoped as by itself,
whatever follows, and what follows stands behind it as it was. -/
theorem rules_deep {s : Scope} {w : Letters × Text} (hw : w ∈ deep) {p : Text} (hp : IsPart p)
    (hmarker : ¬ includes .anyCase Host.marker p) (hstyle : ¬ ['@'] <+: trim p)
    (hfirst : Lacks deep (p ++ w.2.dropLast)) (hends : s.EndsCleanly p) :
    ∃ y, ∀ q, IsPart q → Lacks deep q → ∀ body close rest, Closes body close rest →
      s.rules (p ++ '{' :: (body ++ (close ++ rest))) =
          s.prelude p ++ '{' :: (body ++ (close ++ s.rules rest)) ∧
        s.rules ((p ++ (w.2 ++ q)) ++ '{' :: (body ++ (close ++ rest))) =
          (y ++ ' ' :: q) ++ '{' :: (body ++ (close ++ s.rules rest)) ∧
        collapse (y ++ ' ' :: q) = collapse (s.prelude p ++ ' ' :: q) := by
  have hlacks : Lacks deep p := hfirst.of_isInfix (List.prefix_append p _).isInfix
  have hdirective : ¬ IsDirective p := fun h => hstyle h.1
  obtain ⟨b', hb', hshallow⟩ := shallow_trimStart hmarker hp.ink hends
  refine ⟨p.takeWhile isBlank ++ s.shallow (trimStart p), fun q hq hlacks' body close rest hclose =>
    ⟨hp.rules_eq hdirective hclose, ?_, ?_⟩⟩
  · rw [(hp.append_deep hw hq).rules_eq (hp.ink.not_isDirective_append hstyle _) hclose,
      prelude_append_deep hw hp hq hfirst hlacks' hstyle]
    simp
  · have hblanks : ∀ c ∈ blanksAtEnd p, isBlank c := fun _ => isBlank_of_mem_blanksAtEnd
    rw [prelude_of_not_mem hp.comma hdirective, alternative_of_lacks hlacks, hshallow]
    simp only [List.append_assoc]
    exact collapse_append (collapse_append (collapse_append_space hb' hblanks q) _) _

/-- With a space before the combinator. -/
theorem rules_deep_space :
    let s : Scope := { content := "c".toList, host := "h".toList }
    ∃ y, s.rules "a:b >>> d\x7b\x7d".toList = y ++ "  d\x7b\x7d".toList ∧
      collapse (y ++ "  d".toList) = "a[c]:b d".toList := by
  intro s
  have hends : s.EndsCleanly "a:b ".toList :=
    .inr ⟨⟨'c', by decide, by decide⟩, fun _ => .inl (by decide)⟩
  obtain ⟨y, hy⟩ := @rules_deep s _ (List.mem_cons_self : (Letters.exact, ">>>".toList) ∈ deep)
    "a:b ".toList (by decide +kernel) (by decide +kernel) (by decide +kernel) (by decide +kernel)
    hends
  have hclose : Closes [] ['}'] [] :=
    .brace ⟨StaysOpen.nil 0, rfl⟩ (fun c hc => absurd hc List.not_mem_nil) (by simp)
  obtain ⟨-, hrules, hcollapse⟩ :=
    hy " d".toList (by decide +kernel) (by decide +kernel) [] _ _ hclose
  have hprelude : collapse (s.prelude "a:b ".toList ++ ' ' :: " d".toList) =
      "a[c]:b d".toList := by decide +kernel
  refine ⟨y, hrules.trans ?_, hcollapse.trans hprelude⟩
  rw [rules_nil, List.append_assoc]
  rfl

/-- With a tab before the combinator the content attribute stands behind the tab. -/
theorem rules_deep_tab :
    let s : Scope := { content := "c".toList, host := "h".toList }
    let p := "a\t".toList
    let q := "b".toList
    (IsPart p ∧ ¬ includes .anyCase Host.marker p ∧ Lacks deep p ∧ ¬ ['@'] <+: trim p) ∧
      (IsPart q ∧ Lacks deep q) ∧
      s.rules (p ++ "\x7b\x7d".toList) = "a[c]\t\x7b\x7d".toList ∧
      s.rules (p ++ (">>>".toList ++ q) ++ "\x7b\x7d".toList) = "a\t[c] b\x7b\x7d".toList ∧
      collapse "a\t[c] b".toList ≠ collapse ("a[c]\t".toList ++ ' ' :: q) := by
  decide +kernel

end Scope

end ScopedStyles
