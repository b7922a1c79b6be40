import ScopedStyles.Proofs.Selector.Keyword
import ScopedStyles.Proofs.Sheet.Twice

/-!
# The keywords of a sheet

At-rules stay at-rules when a stylesheet is scoped (`Sheet.keywords_stay`). Only `@page` has a
selector, so that every other at-rule keeps its whole prelude. `@page` keeps its keyword unless a
marker of `:host` stands in it or the scope goes before it, as it does in loose mode.

The place of a rule in a stylesheet is given by `Sheet.preludes`: all preludes in their order, each
with the number of levels around it. A prelude can become blank when it is scoped, and is then read
as a part of the block before it, but never the prelude of an at-rule.
-/

namespace ScopedStyles

open Text Selector

/-! ## Preludes -/

namespace Scope

variable {s : Scope} {p : Text}

/-- The prelude is that of an at-rule, and the scope leaves its keyword alone. -/
def KeepsKeyword (s : Scope) (p : Text) : Prop :=
  ['@'] <+: trim p ∧ ("@page".toList <+: trim p → s.Spares (keyword p) (firstPart (trim p)))

instance (s : Scope) (p : Text) : Decidable (s.KeepsKeyword p) :=
  inferInstanceAs (Decidable (_ ∧ _))

/-- A prelude whose keyword is left alone has the same keyword once it is scoped. -/
theorem KeepsKeyword.keyword_prelude (h : s.KeepsKeyword p) :
    keyword (s.prelude p) = keyword p := by
  obtain ⟨hat, hspares⟩ := h
  by_cases hdirective : IsDirective p
  · rw [s.prelude_of_isDirective hdirective]
  · have hk : IsKeyword (keyword p) := isKeyword_keyword hat
    have hpage : "@page".toList <+: trim p := by_contra fun hnot => hdirective ⟨hat, hnot⟩
    have hbefore : ∀ c ∈ p.takeWhile isBlank, isBlank c := fun c hc => List.mem_takeWhile_imp hc
    have hselector := leads_selector hk (hspares hpage) (leads_keyword hat)
    refine hk.keyword_eq ?_
    rw [prelude, if_neg hdirective,
      trim_append_of_blanks (fun c => isBlank_of_mem_blanksAtEnd),
      trim_append_left_of_blanks hbefore]
    exact hk.leads_trim hselector

/-- Where the scope goes before `@page`, it goes before the whole prelude, and a space follows. -/
theorem prelude_of_precedes (hpage : "@page".toList <+: trim p)
    (h : s.Precedes (firstPart (trim p))) :
    ∃ behind, s.prelude p =
      p.takeWhile isBlank ++ (s.content ++ ' ' :: (keyword p ++ behind)) := by
  have hat : ['@'] <+: trim p := List.IsPrefix.trans (by decide) hpage
  have hnot : ¬ IsDirective p := fun hdirective => hdirective.2 hpage
  obtain ⟨tail, htail⟩ := selector_of_precedes h
  obtain ⟨r, hr⟩ := ((isKeyword_keyword hat).leads_firstPart (leads_keyword hat)).isPrefix
  refine ⟨r ++ (tail ++ blanksAtEnd p), ?_⟩
  rw [prelude, if_neg hnot, htail, ← hr]
  simp

/-- A scope without semicolons and braces brings none into a prelude. -/
theorem isRun_prelude (hcontent : IsRun s.content) (hhost : IsRun s.host) (hp : IsRun p) :
    IsRun (s.prelude p) := by
  have hbrings : ∀ c, s.Brings c → c ≠ ';' ∧ c ≠ '{' ∧ c ≠ '}' := by
    rintro c (hc | hc | hc)
    · exact hcontent c hc
    · exact hhost c hc
    · have hwritten : ∀ d ∈ " ,[]>+~".toList, d ≠ ';' ∧ d ≠ '{' ∧ d ≠ '}' := by decide
      exact hwritten c hc
  intro c hc
  by_contra hstop
  exact not_mem_prelude (fun hmem => hstop (hp c hmem)) (fun hmem => hstop (hbrings c hmem)) hc

end Scope

/-! ## Places -/

namespace Sheet

variable {s : Scope} {sheet : Sheet} {t p : Text}

/-- A prelude inside a level, seen from outside it. -/
def deeper : Nat × Text → Nat × Text := Prod.map (· + 1) id

/-- The preludes of a sheet in their order, each with the number of levels around it. -/
def preludes : Sheet → List (Nat × Text)
  | fragment _ => []
  | statement p rest => (0, p) :: rest.preludes
  | stray _ rest => rest.preludes
  | block p _ _ rest => (0, p) :: rest.preludes
  | group p body _ rest => (0, p) :: (body.preludes.map deeper ++ rest.preludes)

/-- A scoped sheet has the scoped preludes, each at its place. -/
theorem Reads.preludes_scope (h : sheet.Reads t) (s : Scope) :
    (sheet.scope s).preludes = sheet.preludes.map (Prod.map id s.prelude) := by
  induction h with
  | fragment hrun => rfl
  | statement hrun hrest ih => rw [scope, preludes, ih, preludes, List.map_cons]; rfl
  | stray hrun hrest ih => rw [scope, preludes, ih, preludes]
  | block hrun hlevel hclose hrest ih => rw [scope, preludes, ih, preludes, List.map_cons]; rfl
  | group hrun hlevel hclose hbody hrest ihbody ih =>
    have hself := s.prelude_of_isDirective hlevel.isDirective
    rw [scope, preludes, ihbody, ih, preludes, List.map_cons, List.map_append, List.map_map,
      List.map_map, Prod.map_apply, hself]
    rfl

/-! ## Keywords of a text -/

/-- The at-keyword of a prelude, if it has one, with its place. -/
def placed (p : Text) : List (Nat × Text) := if keyword p = [] then [] else [(0, keyword p)]

/-- The at-keywords among preludes, each at the place of its prelude. -/
def keywordsAt (places : List (Nat × Text)) : List (Nat × Text) :=
  (places.map (Prod.map id keyword)).filter (·.2 ≠ [])

/-- The at-keywords of a text in their order, each with the number of levels around it. -/
def keywords (t : Text) : List (Nat × Text) := keywordsAt (read t).preludes

theorem keywordsAt_cons (p : Text) (places : List (Nat × Text)) :
    keywordsAt ((0, p) :: places) = placed p ++ keywordsAt places := by
  rw [keywordsAt, List.map_cons, List.filter_cons, placed, keywordsAt]
  by_cases hnil : keyword p = []
  · simp [hnil]
  · simp [hnil]

theorem keywordsAt_append (l l' : List (Nat × Text)) :
    keywordsAt (l ++ l') = keywordsAt l ++ keywordsAt l' := by
  rw [keywordsAt, List.map_append, List.filter_append]
  rfl

theorem keywordsAt_map_deeper (l : List (Nat × Text)) :
    keywordsAt (l.map deeper) = (keywordsAt l).map deeper := by
  simp only [keywordsAt, List.map_map, List.filter_map]
  rfl

theorem keywords_run (hp : IsRun p) : keywords p = [] := by
  rw [keywords, read_run hp, preludes]
  rfl

theorem keywords_semicolon (hp : IsRun p) (t : Text) :
    keywords (p ++ ';' :: t) = placed p ++ keywords t := by
  rw [keywords, read_semicolon hp, preludes, keywordsAt_cons, keywords]

theorem keywords_close (hp : IsRun p) (t : Text) : keywords (p ++ '}' :: t) = keywords t := by
  rw [keywords, read_close hp, preludes, keywords]

theorem keywords_open {body close : Text} (hp : IsRun p) (hclose : Closes body close t) :
    keywords (p ++ '{' :: (body ++ (close ++ t))) =
      placed p ++ ((if OpensLevel p then (keywords body).map deeper else []) ++ keywords t) := by
  rw [keywords, read_open hp hclose]
  split
  · rw [preludes, keywordsAt_cons, keywordsAt_append, keywordsAt_map_deeper, keywords, keywords]
  · rw [preludes, keywordsAt_cons, List.nil_append, keywords]

/-! ## Blanks and semicolons -/

theorem keyword_blanks_append {b : Text} (hb : ∀ c ∈ b, isBlank c) (p : Text) :
    keyword (b ++ p) = keyword p := by
  rw [keyword, keyword, trim_append_left_of_blanks hb]

/-- Blanks before a text belong to its first prelude, or to nothing. -/
theorem keywords_blanks_append {b : Text} (hb : ∀ c ∈ b, isBlank c) (t : Text) :
    keywords (b ++ t) = keywords t := by
  have hrun : ∀ {p : Text}, IsRun p → IsRun (b ++ p) := fun hp =>
    List.forall_mem_append.mpr ⟨isRun_of_blanks hb, hp⟩
  have hplaced : ∀ p, placed (b ++ p) = placed p := fun p => by
    rw [placed, placed, keyword_blanks_append hb]
  have hlevel : ∀ p, OpensLevel (b ++ p) ↔ OpensLevel p := fun p => by
    rw [OpensLevel, OpensLevel, trim_append_left_of_blanks hb]
  have hreads := reads_read t
  generalize read t = sheet at hreads
  cases hreads with
  | fragment hp => rw [keywords_run hp, keywords_run (hrun hp)]
  | @statement p t rest hp hrest =>
    rw [← List.append_assoc, keywords_semicolon (hrun hp), keywords_semicolon hp, hplaced]
  | @stray p t rest hp hrest =>
    rw [← List.append_assoc, keywords_close (hrun hp), keywords_close hp]
  | @block p body close t rest hp hnot hclose hrest =>
    rw [← List.append_assoc, keywords_open (hrun hp) hclose, keywords_open hp hclose, hplaced]
    simp only [hlevel]
  | @group p body close t level rest hp hopens hclose hbody hrest =>
    rw [← List.append_assoc, keywords_open (hrun hp) hclose, keywords_open hp hclose, hplaced]
    simp only [hlevel]

/-- What belongs to the end of a block has no keyword. -/
theorem keywords_splitSemicolon (t : Text) : keywords (Rule.splitSemicolon t).2 = keywords t := by
  have hblanks : ∀ c ∈ t.takeWhile isBlank, isBlank c := fun c hc => List.mem_takeWhile_imp hc
  have hsplit : t.takeWhile isBlank ++ t.dropWhile isBlank = t := List.takeWhile_append_dropWhile
  unfold Rule.splitSemicolon
  split
  · rename_i rest hrest
    have hnone : placed (t.takeWhile isBlank) = [] := by
      rw [← List.append_nil (t.takeWhile isBlank), placed, keyword_blanks_append hblanks]
      rfl
    conv => rhs; rw [← hsplit, hrest, keywords_semicolon (isRun_of_blanks hblanks), hnone]
    rfl
  · conv => rhs; rw [← hsplit, keywords_blanks_append hblanks]

/-! ## The text of a scoped sheet -/

/-- A block ends where it did when its braces stay, whatever is written behind it. -/
theorem keywords_open_of_braces {body body' close rest rest' : Text} (hp : IsRun p)
    (hclose : Closes body close rest) (hbraces : braces body' = braces body)
    (hnil : rest = [] → rest' = []) :
    keywords (p ++ '{' :: (body' ++ (close ++ rest'))) =
      placed p ++
        ((if OpensLevel p then (keywords body').map deeper else []) ++ keywords rest') := by
  have hbalanced : Balanced body → Balanced body' := by
    rw [← balanced_braces, ← hbraces, balanced_braces]
    exact id
  cases hclose with
  | semicolon hbody hblanks => exact keywords_open hp (.semicolon (hbalanced hbody) hblanks)
  | @brace blanks rest hbody hblanks hrest =>
    -- a prelude that became blank, and its semicolon, now belong to the end of the block
    have hends := Rule.closes_splitEnd (hbalanced hbody) (blanks ++ rest')
    have hopen := keywords_open hp hends
    rw [Rule.splitEnd_append] at hopen
    have hrest' : keywords (Rule.splitEnd ('}' :: (blanks ++ rest'))).2 = keywords rest' :=
      (keywords_splitSemicolon (blanks ++ rest')).trans (keywords_blanks_append hblanks rest')
    rw [List.cons_append, hopen, hrest']
  | missing hbody =>
    rw [hnil rfl]
    refine keywords_open hp (.missing ?_)
    rwa [← staysOpen_braces, hbraces, staysOpen_braces]

end Sheet

namespace Scope

variable {s : Scope} {p : Text}

/-- The at-keywords that the scope leaves alone, each with its place. -/
def kept (s : Scope) (places : List (Nat × Text)) : List (Nat × Text) :=
  (places.filter fun place => s.KeepsKeyword place.2).map (Prod.map id keyword)

theorem kept_append (s : Scope) (l l' : List (Nat × Text)) :
    s.kept (l ++ l') = s.kept l ++ s.kept l' := by
  rw [kept, List.filter_append, List.map_append]
  rfl

theorem kept_map_deeper (s : Scope) (l : List (Nat × Text)) :
    s.kept (l.map Sheet.deeper) = (s.kept l).map Sheet.deeper := by
  simp only [kept, List.map_map, List.filter_map]
  rfl

theorem kept_singleton_sublist (s : Scope) (p : Text) :
    (s.kept [(0, p)]).Sublist (Sheet.placed (s.prelude p)) := by
  by_cases hkeeps : s.KeepsKeyword p
  · have hne : keyword p ≠ [] := (isKeyword_keyword hkeeps.1).ne_nil
    rw [Sheet.placed, hkeeps.keyword_prelude, if_neg hne]
    simp [kept, hkeeps]
  · simp [kept, hkeeps]

end Scope

namespace Sheet

variable {s : Scope} {sheet : Sheet} {t : Text}

/-- The keywords that the scope leaves alone are found in the text of the scoped sheet, in the same
order and at the same levels. -/
theorem Reads.kept_sublist_keywords (h : sheet.Reads t)
    (hall : sheet.AllPreludes fun p => IsRun (s.prelude p)) :
    (s.kept sheet.preludes).Sublist (keywords (sheet.scope s).text) := by
  induction h with
  | fragment hrun => exact List.nil_sublist _
  | @statement p t rest hrun hrest ih =>
    rw [scope, text, keywords_semicolon hall.1, preludes, ← List.singleton_append, s.kept_append]
    exact (s.kept_singleton_sublist p).append (ih hall.2)
  | stray hrun hrest ih =>
    rw [scope, text, keywords_close hrun, preludes]
    exact ih hall
  | @block p body close t rest hrun hlevel hclose hrest ih =>
    rw [scope, text, keywords_open_of_braces hall.1 hclose rfl hrest.nil_scope, preludes,
      ← List.singleton_append, s.kept_append]
    exact (s.kept_singleton_sublist p).append ((ih hall.2).trans (List.sublist_append_right _ _))
  | @group p body close t level rest hrun hlevel hclose hbody hrest ihbody ih =>
    have hself := s.prelude_of_isDirective hlevel.isDirective
    have hfirst := s.kept_singleton_sublist p
    rw [hself] at hfirst
    rw [scope, text, keywords_open_of_braces hrun hclose (hbody.braces_scope hall.2.1)
      hrest.nil_scope, if_pos hlevel, preludes, ← List.singleton_append, s.kept_append,
      s.kept_append, s.kept_map_deeper]
    exact hfirst.append (((ihbody hall.2.1).map deeper).append (ih hall.2.2))

theorem Reads.allPreludes_of_isRun {P : Text → Prop} (h : sheet.Reads t)
    (himp : ∀ p, IsRun p → P p) : sheet.AllPreludes P := by
  induction h with
  | fragment hrun => trivial
  | statement hrun hrest ih => exact ⟨himp _ hrun, ih⟩
  | stray hrun hrest ih => exact ih
  | block hrun hlevel hclose hrest ih => exact ⟨himp _ hrun, ih⟩
  | group hrun hlevel hclose hbody hrest ihbody ih => exact ⟨himp _ hrun, ihbody, ih⟩

/-- At-rules stay at-rules. A scoped stylesheet is written with the preludes at their places, and
the prelude of an at-rule has the keyword it had, unless the scope goes before it or a marker of
`:host` stands in it. A scope without semicolons and braces does not hide any of these keywords from
a reader of the scoped stylesheet. -/
theorem keywords_stay {css : Text} (h : sheet.Reads css) (hp : sheet.HasPreludes) (s : Scope) :
    s.rules css = (sheet.scope s).text ∧
      (sheet.scope s).preludes = sheet.preludes.map (Prod.map id s.prelude) ∧
      (∀ place ∈ sheet.preludes,
        (s.KeepsKeyword place.2 → keyword (s.prelude place.2) = keyword place.2) ∧
          ("@page".toList <+: trim place.2 → s.Precedes (firstPart (trim place.2)) →
            ∃ behind, s.prelude place.2 =
              place.2.takeWhile isBlank ++ (s.content ++ ' ' :: (keyword place.2 ++ behind)))) ∧
      (IsRun s.content → IsRun s.host →
        (s.kept sheet.preludes).Sublist (keywords (s.rules css))) := by
  refine ⟨h.rules_eq hp s, h.preludes_scope s, fun place _ => ⟨fun hkeeps => hkeeps.keyword_prelude,
    Scope.prelude_of_precedes⟩, fun hcontent hhost => ?_⟩
  have hall := h.allPreludes_of_isRun fun p => Scope.isRun_prelude hcontent hhost (p := p)
  rw [h.rules_eq hp s]
  exact h.kept_sublist_keywords hall

/-- Under a condition, `@page` in strict mode; behind it a statement. -/
theorem keywords_stay_nested :
    let s : Scope := { content := "c".toList, host := "h".toList }
    let css := "@media m \x7b@page:first \x7bd\x7d a \x7b\x7d\x7d@import u;".toList
    s.rules css = "@media m \x7b@page[c]:first \x7bd\x7d a[c] \x7b\x7d\x7d@import u;".toList ∧
      [(0, "@media".toList), (1, "@page".toList), (0, "@import".toList)].Sublist
        (keywords (s.rules css)) := by
  intro s css
  have hread : Sheet.read "@media m \x7b@page:first \x7bd\x7d a \x7b\x7d\x7d@import u;".toList =
      .group "@media m ".toList
        (.block "@page:first ".toList "d".toList "\x7d ".toList
          (.block "a ".toList [] "\x7d".toList (.fragment [])))
        "\x7d".toList (.statement "@import u".toList (.fragment [])) := by cbv
  have hreads := Sheet.reads_read css
  rw [hread] at hreads
  obtain ⟨htext, -, -, hkept⟩ := keywords_stay hreads
    ⟨⟨'@', by decide, by decide⟩, ⟨⟨'@', by decide, by decide⟩, ⟨'a', by decide, by decide⟩,
      trivial⟩, ⟨'@', by decide, by decide⟩, trivial⟩ s
  have hplaces := hkept (by decide) (by decide)
  refine ⟨htext.trans (by decide +kernel), ?_⟩
  rwa [show s.kept _ = [(0, "@media".toList), (1, "@page".toList), (0, "@import".toList)] by
    decide +kernel] at hplaces

/-- In loose mode the scope stands before `@page`, so that no at-rule is left; in strict mode a
marker of `:host` in the keyword is dropped. -/
theorem keywords_leave :
    let loose : Scope := { content := "c".toList, host := "h".toList, mode := .loose }
    let strict : Scope := { content := "c".toList, host := "h".toList }
    let page := "@page \x7b\x7d".toList
    let marked := "@page-shadowcsshost \x7b\x7d".toList
    ((read page).HasPreludes ∧ loose.rules page = "c @page \x7b\x7d".toList ∧
        keywords page = [(0, "@page".toList)] ∧ keywords (loose.rules page) = []) ∧
      (read marked).HasPreludes ∧ strict.rules marked = "@page[c] \x7b\x7d".toList ∧
        keywords marked = [(0, "@page-shadowcsshost".toList)] ∧
        keywords (strict.rules marked) = [(0, "@page".toList)] := by
  intro loose strict page marked
  have hread : ∀ {p : Text}, IsRun p → ¬ OpensLevel p →
      read (p ++ "\x7b\x7d".toList) = .block p [] "\x7d".toList (.fragment []) := by
    intro p hrun hlevel
    have hnil : read [] = .fragment [] := read_run (by decide)
    have hclose : Closes [] "\x7d".toList [] :=
      .brace ⟨StaysOpen.nil 0, rfl⟩ (List.forall_mem_nil _) (by simp)
    have hopen := read_open hrun hclose
    rwa [if_neg hlevel, hnil] at hopen
  have hpage : read page = _ := hread (p := "@page ".toList) (by decide) (by decide)
  have hmarked : read marked = _ :=
    hread (p := "@page-shadowcsshost ".toList) (by decide) (by decide)
  have hpreludes : (read page).HasPreludes := by
    rw [hpage]
    exact ⟨⟨'@', by decide, by decide⟩, trivial⟩
  have hpreludes' : (read marked).HasPreludes := by
    rw [hmarked]
    exact ⟨⟨'@', by decide, by decide⟩, trivial⟩
  have hloose : loose.rules page = "c @page ".toList ++ "\x7b\x7d".toList := by
    rw [(reads_read page).rules_eq hpreludes, hpage]
    decide +kernel
  have hstrict : strict.rules marked = "@page[c] ".toList ++ "\x7b\x7d".toList := by
    rw [(reads_read marked).rules_eq hpreludes', hmarked]
    decide +kernel
  refine ⟨⟨hpreludes, hloose, ?_, ?_⟩, hpreludes', hstrict, ?_, ?_⟩
  · rw [keywords, hpage]
    decide
  · rw [hloose, keywords, hread (by decide) (by decide)]
    decide
  · rw [keywords, hmarked]
    decide
  · rw [hstrict, keywords, hread (by decide) (by decide)]
    decide

end Sheet

end ScopedStyles
