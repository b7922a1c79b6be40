import ScopedStyles.Proofs.Sheet.Prefixed

/-!
# Scoping twice

A scoped stylesheet has the structure of the stylesheet it was made of: scoping changes no brace and
nothing between two preludes. In loose mode its preludes are scoped already, so that scoping it a
second time gives the same text (`Scope.rules_idempotent`).
-/

namespace ScopedStyles

open Text Selector

/-! ## Braces -/

/-- The braces of a text. -/
def braces (t : Text) : Text := t.filter fun c => c == '{' || c == '}'

theorem braces_append (t u : Text) : braces (t ++ u) = braces t ++ braces u :=
  List.filter_append t u

theorem braces_of_isRun {p : Text} (hp : IsRun p) : braces p = [] :=
  List.filter_eq_nil_iff.mpr fun c hc => by simp [hp c hc]

theorem braces_cons_open (t : Text) : braces ('{' :: t) = '{' :: braces t := rfl

theorem braces_cons_close (t : Text) : braces ('}' :: t) = '}' :: braces t := rfl

theorem braces_cons_plain {c : Char} (hopen : c ≠ '{') (hclose : c ≠ '}') (t : Text) :
    braces (c :: t) = braces t := List.filter_cons_of_neg (by simp [hopen, hclose])

theorem staysOpen_braces {depth : Nat} {t : Text} :
    StaysOpen depth (braces t) ↔ StaysOpen depth t := by
  induction t generalizing depth with
  | nil => rfl
  | cons c t ih =>
    by_cases hopen : c = '{'
    · rw [hopen, braces_cons_open, staysOpen_cons_open, staysOpen_cons_open, ih]
    · by_cases hclose : c = '}'
      · rw [hclose, braces_cons_close, staysOpen_cons_close, staysOpen_cons_close, ih]
      · rw [braces_cons_plain hopen hclose, staysOpen_cons_plain hopen hclose, ih]

theorem balanced_braces {t : Text} : Balanced (braces t) ↔ Balanced t := by
  have hopen : (braces t).count '{' = t.count '{' := List.count_filter rfl
  have hclose : (braces t).count '}' = t.count '}' := List.count_filter rfl
  rw [Balanced, Balanced, staysOpen_braces, hopen, hclose]

/-- What may stand behind the end of a block that no semicolon ends. -/
def BeginsBehind (t : Text) : Prop := ∀ c ∈ t.head?, ¬ isBlank c ∧ c ≠ ';'

/-- How a block ends depends on the braces in it, and on how the text behind it begins. -/
theorem Closes.congr {body body' close rest rest' : Text} (h : Closes body close rest)
    (hbraces : braces body' = braces body) (hnil : rest = [] → rest' = [])
    (hbegins : BeginsBehind rest → BeginsBehind rest') : Closes body' close rest' := by
  have hbalanced : Balanced body → Balanced body' := by
    rw [← balanced_braces, ← hbraces, balanced_braces]
    exact id
  cases h with
  | semicolon hbody hblanks => exact .semicolon (hbalanced hbody) hblanks
  | brace hbody hblanks hrest => exact .brace (hbalanced hbody) hblanks (hbegins hrest)
  | missing hbody =>
    rw [hnil rfl]
    refine .missing ?_
    rwa [← staysOpen_braces, hbraces, staysOpen_braces]

/-! ## Scoped sheets -/

namespace Sheet

/-- Each prelude of each level has the property. -/
def AllPreludes (P : Text → Prop) : Sheet → Prop
  | fragment _ => True
  | statement p rest => P p ∧ rest.AllPreludes P
  | stray _ rest => rest.AllPreludes P
  | block p _ _ rest => P p ∧ rest.AllPreludes P
  | group p body _ rest => P p ∧ body.AllPreludes P ∧ rest.AllPreludes P

variable {s : Scope} {sheet : Sheet} {t : Text}

theorem AllPreludes.imp {P Q : Text → Prop} (himp : ∀ p, P p → Q p) (h : sheet.AllPreludes P) :
    sheet.AllPreludes Q := by
  induction sheet with
  | fragment t => trivial
  | statement p rest ih => exact ⟨himp p h.1, ih h.2⟩
  | stray t rest ih => exact ih h
  | block p body close rest ih => exact ⟨himp p h.1, ih h.2⟩
  | group p body close rest ihbody ih => exact ⟨himp p h.1, ihbody h.2.1, ih h.2.2⟩

/-- A prelude of a sheet stands in its text, and is a run that is not blank. -/
theorem Reads.allPreludes {P Q : Text → Prop} (h : sheet.Reads t) (hp : sheet.HasPreludes)
    (hall : sheet.AllPreludes P)
    (himp : ∀ p, p <:+: t → IsRun p → HasInk p → P p → Q p) : sheet.AllPreludes Q := by
  induction h with
  | fragment hrun => trivial
  | @statement p t rest hrun hrest ih =>
    have hsuffix : t <:+ p ++ ';' :: t := (List.suffix_cons ';' t).trans (List.suffix_append p _)
    exact ⟨himp p (List.prefix_append p _).isInfix hrun hp.1 hall.1,
      ih hp.2 hall.2 fun q hq => himp q (hq.trans hsuffix.isInfix)⟩
  | @stray p t rest hrun hrest ih =>
    have hsuffix : t <:+ p ++ '}' :: t := (List.suffix_cons '}' t).trans (List.suffix_append p _)
    exact ih hp hall fun q hq => himp q (hq.trans hsuffix.isInfix)
  | @block p body close t rest hrun hlevel hclose hrest ih =>
    have hsuffix : t <:+ p ++ '{' :: (body ++ (close ++ t)) :=
      ⟨p ++ '{' :: (body ++ close), by simp⟩
    exact ⟨himp p (List.prefix_append p _).isInfix hrun hp.1 hall.1,
      ih hp.2 hall.2 fun q hq => himp q (hq.trans hsuffix.isInfix)⟩
  | @group p body close t level rest hrun hlevel hclose hbody hrest ihbody ih =>
    have hsuffix : t <:+ p ++ '{' :: (body ++ (close ++ t)) :=
      ⟨p ++ '{' :: (body ++ close), by simp⟩
    have hinfix : body <:+: p ++ '{' :: (body ++ (close ++ t)) :=
      ⟨p ++ ['{'], close ++ t, by simp⟩
    exact ⟨himp p (List.prefix_append p _).isInfix hrun hp.1 hall.1,
      ihbody hp.2.1 hall.2.1 fun q hq => himp q (hq.trans hinfix),
      ih hp.2.2 hall.2.2 fun q hq => himp q (hq.trans hsuffix.isInfix)⟩

/-- Scoping changes no brace where the scope brings none. -/
theorem Reads.braces_scope (h : sheet.Reads t)
    (hall : sheet.AllPreludes fun p => IsRun (s.prelude p)) :
    braces (sheet.scope s).text = braces t := by
  induction h with
  | fragment hrun => rfl
  | statement hrun hrest ih =>
    rw [scope, text, braces_append, braces_append, braces_of_isRun hrun,
      braces_of_isRun hall.1, braces_cons_plain (by decide) (by decide),
      braces_cons_plain (by decide) (by decide), ih hall.2]
  | stray hrun hrest ih =>
    rw [scope, text, braces_append, braces_append, braces_cons_close, braces_cons_close, ih hall]
  | block hrun hlevel hclose hrest ih =>
    simp only [scope, text, braces_append, braces_cons_open, braces_of_isRun hrun,
      braces_of_isRun hall.1, ih hall.2]
  | group hrun hlevel hclose hbody hrest ihbody ih =>
    simp only [scope, text, braces_append, braces_cons_open, ihbody hall.2.1, ih hall.2.2]

theorem Reads.nil_scope (h : sheet.Reads t) (ht : t = []) : (sheet.scope s).text = [] := by
  cases h with
  | fragment hrun => exact ht
  | _ => simp at ht

/-- A scoped sheet begins like the sheet, as far as the end of a block before it can tell. -/
theorem Reads.beginsBehind_scope (h : sheet.Reads t) (hp : sheet.HasPreludes)
    (hall : sheet.AllPreludes s.Stays) (ht : BeginsBehind t) :
    BeginsBehind (sheet.scope s).text := by
  have hprelude : ∀ {p x y : Text}, HasInk p → s.Stays p → BeginsBehind (p ++ x) →
      BeginsBehind (s.prelude p ++ y) := by
    intro p x y hink hstays hbegins
    obtain ⟨c, u, hcu⟩ := List.exists_cons_of_ne_nil hink.ne_nil
    obtain ⟨d, v, hdv⟩ := List.exists_cons_of_ne_nil hstays.ink.ne_nil
    have hhead : ∀ e ∈ p.head?, ¬ isBlank e := by
      rw [hcu]
      rintro e ⟨rfl⟩
      exact (hbegins c (by rw [hcu]; rfl)).1
    have hd := hstays.head hhead d (by rw [hdv]; rfl)
    have hsemicolon := (hstays.run d (hdv ▸ List.mem_cons_self)).1
    rw [hdv]
    rintro e ⟨rfl⟩
    exact ⟨hd, hsemicolon⟩
  cases h with
  | fragment hrun => exact ht
  | statement hrun hrest => exact hprelude hp.1 hall.1 ht
  | @stray p t rest hrun hrest =>
    cases p with
    | nil => exact ht
    | cons c p => exact ht
  | block hrun hlevel hclose hrest => exact hprelude hp.1 hall.1 ht
  | @group p body close t level rest hrun hlevel hclose hbody hrest =>
    obtain ⟨c, u, rfl⟩ := List.exists_cons_of_ne_nil hp.1.ne_nil
    exact ht

/-- A scoped sheet is the structure of its text. -/
theorem Reads.reads_scope (h : sheet.Reads t) (hp : sheet.HasPreludes)
    (hall : sheet.AllPreludes s.Stays) : (sheet.scope s).Reads (sheet.scope s).text := by
  induction h with
  | fragment hrun => exact .fragment hrun
  | statement hrun hrest ih => exact .statement hall.1.run (ih hp.2 hall.2)
  | stray hrun hrest ih => exact .stray hrun (ih hp hall)
  | block hrun hlevel hclose hrest ih =>
    refine .block hall.1.run (fun h => hlevel (hall.1.level.mp h)) ?_ (ih hp.2 hall.2)
    exact hclose.congr rfl hrest.nil_scope (hrest.beginsBehind_scope hp.2 hall.2)
  | group hrun hlevel hclose hbody hrest ihbody ih =>
    refine .group hrun hlevel ?_ (ihbody hp.2.1 hall.2.1) (ih hp.2.2 hall.2.2)
    exact hclose.congr (hbody.braces_scope (hall.2.1.imp fun p hp => hp.run)) hrest.nil_scope
      (hrest.beginsBehind_scope hp.2.2 hall.2.2)

theorem AllPreludes.hasPreludes_scope (hp : sheet.HasPreludes)
    (hall : sheet.AllPreludes s.Stays) : (sheet.scope s).HasPreludes := by
  induction sheet with
  | fragment t => trivial
  | statement p rest ih => exact ⟨hall.1.ink, ih hp.2 hall.2⟩
  | stray t rest ih => exact ih hp hall
  | block p body close rest ih => exact ⟨hall.1.ink, ih hp.2 hall.2⟩
  | group p body close rest ihbody ih =>
    exact ⟨hp.1, ihbody hp.2.1 hall.2.1, ih hp.2.2 hall.2.2⟩

theorem AllPreludes.scope_scope (hall : sheet.AllPreludes s.Stays) :
    (sheet.scope s).scope s = sheet.scope s := by
  induction sheet with
  | fragment t => rfl
  | statement p rest ih => simp only [scope, hall.1.again, ih hall.2]
  | stray t rest ih => simp only [scope, ih hall]
  | block p body close rest ih => simp only [scope, hall.1.again, ih hall.2]
  | group p body close rest ihbody ih => simp only [scope, ihbody hall.2.1, ih hall.2.2]

end Sheet

namespace Scope

/-- In loose mode, a stylesheet that is scoped is not changed by scoping it again. -/
theorem rules_idempotent {s : Scope} (hmode : s.mode = .loose) (hs : s.IsWord) {css : Text}
    (hmarker : ¬ includes .anyCase Host.marker css) {sheet : Sheet} (h : sheet.Reads css)
    (hp : sheet.HasPreludes)
    (hstated : sheet.AllPreludes fun p => ¬ IsDirective p → ∀ a ∈ split ',' p, IsStated a) :
    s.rules (s.rules css) = s.rules css := by
  have hall : sheet.AllPreludes s.Stays := h.allPreludes hp hstated fun p hinfix hrun hink =>
    hs.stays hmode (not_includes_of_isInfix hinfix hmarker) hrun hink
  have hagain := (h.reads_scope hp hall).rules_eq (hall.hasPreludes_scope hp) s
  rw [h.rules_eq hp s, hagain, hall.scope_scope]

/-- Under a condition, an alternative that is scoped already and one that leaves the component;
behind it `@page` and a statement. -/
theorem rules_idempotent_nested :
    let s : Scope := { content := "x-foo".toList, host := [], mode := .loose }
    let css := "@media m \x7bx-foo>p ,a >>> b\x7bc\x7d\x7d@page \x7b\x7dd;".toList
    s.rules css =
        "@media m \x7bx-foo>p, x-foo a   b\x7bc\x7d\x7dx-foo @page \x7b\x7dx-foo d;".toList ∧
      s.rules (s.rules css) = s.rules css := by
  intro s css
  have hread : Sheet.read "@media m \x7bx-foo>p ,a >>> b\x7bc\x7d\x7d@page \x7b\x7dd;".toList =
      .group "@media m ".toList
        (.block "x-foo>p ,a >>> b".toList "c".toList "\x7d".toList (.fragment [])) "\x7d".toList
        (.block "@page ".toList [] "\x7d".toList (.statement "d".toList (.fragment []))) := by cbv
  have hreads := Sheet.reads_read css
  rw [hread] at hreads
  refine ⟨(hreads.rules_eq ?preludes s).trans (by decide +kernel),
    rules_idempotent rfl (by decide) (by decide +kernel) hreads ?preludes ?stated⟩
  case preludes =>
    exact ⟨⟨'@', by decide, by decide⟩, ⟨⟨'x', by decide, by decide⟩, trivial⟩,
      ⟨'@', by decide, by decide⟩, ⟨'d', by decide, by decide⟩, trivial⟩
  case stated =>
    have hdirective : IsDirective "@media m ".toList := by decide
    exact ⟨absurd hdirective, ⟨fun _ => by decide +kernel, trivial⟩,
      fun _ => by decide +kernel, fun _ => by decide +kernel, trivial⟩

end Scope

end ScopedStyles
