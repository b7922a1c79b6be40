import ScopedStyles.Proofs.Selector.Anchored

/-!
# Traces of markers

The markers that stand for the host element while a selector is scoped must not be seen in the end.
`Host.traces` are the words by which a marker would be seen, and `Scope.Settles` says which
selectors with an anchor leave none of them (`Scope.lacks_alternative_text`): those that are not
scoped already, and in which a compound selector with a combinator behind it begins with its anchor.
-/

namespace ScopedStyles

open Text Host Selector

/-! ## Traces -/

namespace Host

/-- The words by which a marker or an anchor is seen. -/
def traces : List (Letters × Text) :=
  [(.anyCase, "-shadowcss".toList), (.anyCase, "-no-combinator".toList)]

variable {x t : Text}

theorem not_includes_marker (h : Lacks traces t) : ¬ includes .anyCase marker t :=
  fun hmarker => h (.anyCase, "-shadowcss".toList) (by decide)
    (@includes_of_includes_append _ _ "host".toList _ hmarker)

theorem divides_traces_of_isBlank {c : Char} (hc : isBlank c) : Divides traces c :=
  Text.divides_of_isBlank (by decide) hc

theorem divides_traces_of_isCombinator {c : Char} (hc : isCombinator c) : Divides traces c := by
  simp only [isCombinator, Bool.or_eq_true, beq_iff_eq] at hc
  rcases hc with ((rfl | rfl) | rfl) | rfl <;> decide

/-- Nothing in the text names the host, and nothing is a trace. -/
def IsClean (t : Text) : Prop := Lacks names t ∧ Lacks traces t

instance (t : Text) : Decidable (IsClean t) := inferInstanceAs (Decidable (_ ∧ _))

/-- A combinator that is written as a space leaves no trace. -/
theorem lacks_flattenCombinators {words : List (Letters × Text)} (hspace : Divides words ' ')
    (h : Lacks words t) : Lacks words (flattenCombinators t) := by
  simp only [flattenCombinators, List.foldl_cons, List.foldl_nil]
  exact (((h.replace hspace _ _).replace hspace _ _).replace hspace _ _).replace hspace _ _

end Host

/-! ## Scoping in strict mode -/

namespace Scope

variable {s : Scope} {t x y : Text}

/-- The attributes of the scope have no trace of a marker. -/
structure IsTraceless (s : Scope) : Prop where
  content : Lacks traces s.content
  value : Lacks traces (unwrapIs s.content)
  host : Lacks traces s.host

/-- An attribute keeps what stands before it from what stands behind it. -/
theorem lacks_attribute {value : Text} (hvalue : Lacks traces value) :
    Lacks traces (x ++ ('[' :: value ++ [']'] ++ y)) ↔ Lacks traces x ∧ Lacks traces y := by
  have hopen : Divides traces '[' := by decide
  have hclose : Divides traces ']' := by decide
  rw [List.append_assoc, List.cons_append, List.singleton_append, lacks_append_cons hopen,
    lacks_append_cons hclose, and_iff_right hvalue]

/-- A combinator with the spaces around it does the same. -/
theorem lacks_link {c : Char} (hc : isCombinator c) :
    Lacks traces (x ++ ([' ', c, ' '] ++ y)) ↔ Lacks traces x ∧ Lacks traces y := by
  have hspace : Divides traces ' ' := by decide
  rw [List.cons_append, List.cons_append, List.cons_append, List.nil_append,
    lacks_append_cons hspace, lacks_cons (divides_traces_of_isCombinator hc), lacks_cons hspace]

theorem lacks_insertAttribute (hs : s.IsTraceless) (t : Text) :
    Lacks traces (insertAttribute s.contentAttribute t) ↔ Lacks traces t := by
  have hcolon : Divides traces ':' := by decide
  have hsplit := List.takeWhile_append_dropWhile (p := (· != ':')) (l := t)
  rw [insertAttribute, List.append_assoc, contentAttribute, lacks_attribute hs.value]
  cases hbehind : t.dropWhile (· != ':') with
  | nil =>
    rw [hbehind, List.append_nil] at hsplit
    rw [hsplit, and_iff_left hcolon.lacks_nil]
  | cons c u =>
    obtain rfl : c = ':' := by
      have hhead := List.head?_dropWhile_not (· != ':') t
      rw [hbehind] at hhead
      simpa using hhead
    rw [hbehind] at hsplit
    rw [lacks_cons hcolon, ← lacks_append_cons hcolon, hsplit]

theorem lacks_compound (hs : s.IsTraceless) (h : Lacks traces t) : Lacks traces (s.compound t) := by
  by_cases hne : trim t = []
  · rw [compound, if_pos hne]
    exact h.of_isInfix List.nil_prefix.isInfix
  · rw [compound_of_not_includes hne (not_includes_marker h)]
    exact (lacks_insertAttribute hs t).mpr h

theorem lacks_inside (hs : s.IsTraceless) (h : Lacks traces t) : Lacks traces (s.inside t) := by
  induction t using chain_induction with
  | run k hk =>
    rw [inside_of_run hk]
    exact lacks_compound hs h
  | link k c t hk hc ih =>
    have hcompound := h.of_isInfix ((trim_isInfix k).trans (List.prefix_append k _).isInfix)
    have hbehind := h.of_isInfix (trimStart_suffix_append_cons k c t).isInfix
    rw [inside_append_cons hk hc]
    exact (lacks_link hc).mpr ⟨lacks_compound hs hcompound, ih hbehind⟩

/-- What is outside the component leaves no trace. -/
theorem lacks_spaced {chained : List (Text × Char)}
    (h : ∀ link ∈ chained, Lacks traces link.1 ∧ isCombinator link.2) (hy : Lacks traces y) :
    Lacks traces (spaced chained ++ y) := by
  induction chained with
  | nil => exact hy
  | cons link chained ih =>
    obtain ⟨k, d⟩ := link
    rw [List.forall_mem_cons] at h
    have hwhole : spaced ((k, d) :: chained) ++ y =
        trim k ++ ([' ', d, ' '] ++ (spaced chained ++ y)) := by simp [spaced]
    rw [hwhole]
    exact (lacks_link h.1.2).mpr ⟨h.1.1.of_isInfix (trim_isInfix k), ih h.2⟩

/-- The host attribute takes the place of the anchor. -/
theorem compound_anchor_strict (hs : s.IsTraceless) (hmode : s.mode = .strict)
    (hx : Lacks traces x) (hy : Lacks traces y) :
    s.compound (x ++ (anchor ++ y)) = x ++ ('[' :: s.host ++ [']'] ++ y) ∧
      Lacks traces (x ++ ('[' :: s.host ++ [']'] ++ y)) := by
  have hlacks := (lacks_attribute hs.host).mpr ⟨hx, hy⟩
  have hhost : s.hostText = '[' :: s.host ++ [']'] := by rw [hostText, hmode]
  refine ⟨?_, hlacks⟩
  rw [← hhost] at hlacks ⊢
  exact compound_anchor (not_includes_marker hx) (not_includes_marker hlacks)

/-- An anchor that begins its compound selector, or stands in the last one, leaves no trace. -/
theorem lacks_strictly (hs : s.IsTraceless) (hmode : s.mode = .strict) (hx : Lacks traces x)
    (hy : Lacks traces y) (hplace : (chain x).last = [] ∨ ∀ c ∈ y, ¬ isCombinator c) :
    Lacks traces (s.strictly (x ++ (anchor ++ y))) := by
  have hlinks : ∀ link ∈ (chain x).links, Lacks traces link.1 ∧ isCombinator link.2 :=
    fun link hlink => ⟨hx.of_isInfix ((infix_of_mem_links x).1 link hlink).1,
      ((infix_of_mem_links x).1 link hlink).2⟩
  have hlast : Lacks traces (chain x).last := hx.of_isInfix (infix_of_mem_links x).2.isInfix
  -- only the last compound selector is scoped whether or not it begins with the anchor
  by_cases hrun : ∀ c ∈ y, ¬ isCombinator c
  · obtain ⟨hcompound, hlacks⟩ := compound_anchor_strict hs hmode hlast hy
    rw [strictly_last (not_includes_marker hx) hrun, hcompound]
    exact lacks_spaced hlinks hlacks
  · have hfirst : (chain x).last = [] := hplace.resolve_right hrun
    induction y using chain_induction with
    | run k hk => exact absurd hk hrun
    | link k c t hk hc _ =>
      have hk' : Lacks traces (trimEnd k) :=
        hy.of_isInfix ((trimEnd_isPrefix k).isInfix.trans (List.prefix_append k _).isInfix)
      have hbehind : Lacks traces (trimStart t) :=
        hy.of_isInfix (trimStart_suffix_append_cons k c t).isInfix
      obtain ⟨hcompound, hlacks⟩ := @compound_anchor_strict s [] (trimEnd k) hs hmode
        (hx.of_isInfix List.nil_prefix.isInfix) hk'
      rw [List.nil_append, List.nil_append] at hcompound
      rw [strictly_link (not_includes_marker hx) hfirst hk hc, hcompound]
      exact lacks_spaced hlinks ((lacks_link hc).mpr ⟨hlacks, lacks_inside hs hbehind⟩)

/-! ## Scoping in loose mode -/

/-- The scope takes the place of the anchor, where no trace begins before it or ends behind it. -/
theorem lacks_loosely (hs : s.IsTraceless) (hmode : s.mode = .loose) (hx : Lacks traces x)
    (hy : Lacks traces y) (hsides : ∀ w ∈ traces, Shuts w.1 w.2 x ∧ Bars w.1 w.2 y) :
    Lacks traces (s.loosely (x ++ (anchor ++ y))) := by
  have hlacks := lacks_append_append hsides hs.content hy
  have hmarker : includes .anyCase marker (x ++ (anchor ++ y)) :=
    includes_of_includes_append (includes_anyCase (includes_anchor x y))
  have hhost : s.hostText = s.content := by rw [hostText, hmode]
  rw [← hhost] at hlacks
  rw [loosely, if_pos hmarker,
    writeHost_anchor (not_includes_marker hx) (not_includes_marker hlacks)]
  exact hlacks

/-! ## Alternatives -/

/-- The part of a selector that is inside the component: it ends at the first deep combinator. -/
def own (r : Reading) : Reading := ⟨trimStart r.before, (deepReader.between (trimEnd r.behind)).1⟩

/-- A selector with an anchor that leaves no trace of it. -/
@[mk_iff]
structure Settles (s : Scope) (r : Reading) : Prop where
  /-- No trace stands on either side. -/
  lacks : Lacks traces r.before ∧ Lacks traces r.behind
  /-- The anchor is inside the component. -/
  shallow : Lacks deep r.before
  /-- The selector is not scoped already. -/
  unscoped : ¬ isScoped s.content (own r).text
  /-- In strict mode the anchor begins its compound selector, or stands in the last one. -/
  strict : s.mode = .strict →
    (chain (own r).before).last = [] ∨ ∀ c ∈ (own r).behind, ¬ isCombinator c
  /-- In loose mode no trace begins before the anchor or ends behind it. -/
  loose : s.mode = .loose →
    ∀ w ∈ traces, Shuts w.1 w.2 (own r).before ∧ Bars w.1 w.2 (own r).behind

instance (s : Scope) (r : Reading) : Decidable (s.Settles r) :=
  decidable_of_iff' _ (s.settles_iff r)

theorem lacks_alternative_text (hs : s.IsTraceless) {r : Reading} (hr : s.Settles r) :
    Lacks traces (s.alternative r.text) := by
  have hspace : Divides traces ' ' := by decide
  have hbehind : Lacks traces (trimEnd r.behind) :=
    hr.lacks.2.of_isInfix (trimEnd_isPrefix r.behind).isInfix
  obtain ⟨hfirst, hothers⟩ := Reader.between_isInfix leavesSuffix_deepReader (trimEnd r.behind)
  have hown : Lacks traces (own r).before ∧ Lacks traces (own r).behind :=
    ⟨hr.lacks.1.of_isInfix (trimStart_suffix r.before).isInfix, hbehind.of_isInfix hfirst.isInfix⟩
  have hshallow : Lacks deep (trimStart r.before) :=
    hr.shallow.of_isInfix (trimStart_suffix r.before).isInfix
  have hscoped : Lacks traces (s.shallow (own r).text) := by
    rw [Scope.shallow, if_neg hr.unscoped]
    cases hmode : s.mode with
    | strict => exact lacks_strictly hs hmode hown.1 hown.2 (hr.strict hmode)
    | loose => exact lacks_loosely hs hmode hown.1 hown.2 (hr.loose hmode)
  rw [Reading.text, alternative_append_anchor hshallow, lacks_intercalate hspace]
  exact List.forall_mem_cons.mpr ⟨hscoped, fun t ht => hbehind.of_isInfix (hothers t ht)⟩

/-- A selector without an anchor leaves no trace. -/
theorem lacks_alternative (hs : s.IsTraceless) (h : Lacks traces t) :
    Lacks traces (s.alternative t) := by
  have hspace : Divides traces ' ' := by decide
  have htrim : Lacks traces (trim t) := h.of_isInfix (trim_isInfix t)
  obtain ⟨hfirst, hothers⟩ := Reader.between_isInfix leavesSuffix_deepReader (trim t)
  have hown := htrim.of_isInfix hfirst.isInfix
  have hscoped : Lacks traces (s.shallow (deepReader.between (trim t)).1) := by
    unfold Scope.shallow
    split
    · exact hown
    · split
      · rw [strictly_of_not_includes (not_includes_anchor (not_includes_marker hown))]
        exact lacks_inside hs hown
      · rw [loosely, if_neg (not_includes_marker hown), List.append_assoc, List.singleton_append,
          lacks_append_cons hspace]
        exact ⟨hs.content, hown⟩
  rw [alternative]
  exact (lacks_intercalate hspace _).mpr
    (List.forall_mem_cons.mpr ⟨hscoped, fun t ht => htrim.of_isInfix (hothers t ht)⟩)

end Scope

end ScopedStyles
