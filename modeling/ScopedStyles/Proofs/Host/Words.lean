import ScopedStyles.Host
import ScopedStyles.Proofs.Text.Pieces
import ScopedStyles.Proofs.Text.Words

/-!
# The words of host selectors

Each pass over a stylesheet that normalizes host selectors waits for words of its own. Where none of
them occurs nothing is normalized (`normalize_of_isPlain`), and behind a text that does not name the
host the passes go on as if they began there (`normalize_append_cons`).
-/

namespace ScopedStyles.Host

open Text

/-! ## Words -/

/-- The names of the host element, and the markers that stand for them. -/
def names : List (Letters × Text) :=
  [(.anyCase, ":host".toList), (.anyCase, marker), (.anyCase, contextMarker)]

/-- The combinators that stay inside a component. -/
def piercing : List (Letters × Text) :=
  [(.exact, "::shadow".toList), (.exact, "::content".toList), (.exact, "/shadow-deep/".toList),
    (.exact, "/shadow/".toList)]

/-- The words that are written differently when host selectors are normalized. -/
def words : List (Letters × Text) := names ++ piercing

/-- A text in which there is nothing to normalize. -/
def IsPlain (t : Text) : Prop := Lacks words t

instance (t : Text) : Decidable (IsPlain t) := inferInstanceAs (Decidable (Lacks words t))

variable {x t : Text} {c : Char}

theorem isPlain_iff : IsPlain t ↔ Lacks names t ∧ Lacks piercing t := by
  simp only [IsPlain, Lacks, words, List.forall_mem_append]

theorem divides_of_isBlank (hc : isBlank c) : Divides words c :=
  Text.divides_of_isBlank (by decide) hc

theorem isPlain_of_blanks (hx : ∀ c ∈ x, isBlank c) : IsPlain x := by
  have h := lacks_append_of_divides (fun c hc => divides_of_isBlank (hx c hc)) []
  rw [List.append_nil] at h
  exact h.mpr (by decide)

/-- What ends a selector stands in none of the words. -/
theorem divides_of_not_inSelector (hc : ¬ inSelector c) : Divides words c := by
  have hstop : c = ',' ∨ c = '{' := by simpa [inSelector, or_iff_not_imp_left] using hc
  rcases hstop with rfl | rfl <;> decide

theorem lacks_names_iff : Lacks names t ↔ ¬ includes .anyCase ":host".toList t ∧
    ¬ includes .anyCase marker t ∧ ¬ includes .anyCase contextMarker t := by
  simp [Lacks, names]

theorem divides_names (hc : Divides words c) : Divides names c :=
  fun w hw => hc w (List.mem_append_left _ hw)

/-! ## Names -/

theorem awaitsLiteral_hostReader : hostReader.AwaitsLiteral .anyCase marker := by
  intro t ht
  simp [hostReader, use?, ht]

theorem awaitsLiteral_contextReader : contextReader.AwaitsLiteral .anyCase contextMarker := by
  intro t ht
  simp [contextReader, use?, ht]

/-- `:host-context` begins as `:host` does. -/
theorem not_includes_hostContext (h : ¬ includes .anyCase ":host".toList t) :
    ¬ includes .anyCase ":host-context".toList t :=
  fun hcontext => h (@includes_of_includes_append _ _ "-context".toList _ hcontext)

theorem mark_of_not_includes (h : ¬ includes .anyCase ":host".toList t) : mark t = t := by
  rw [mark, replace_of_not_includes (not_includes_hostContext h), replace_of_not_includes h]

theorem mark_append_cons (hc : Divides words c) (x t : Text) :
    mark (x ++ c :: t) = mark x ++ c :: mark t := by
  have hhost := (hc (.anyCase, ":host".toList) (by decide)).2
  have hcontext : ∀ a ∈ ":host-context".toList, ¬ Letters.anyCase.agree a c := by
    have hmarker := (hc (.anyCase, contextMarker) (by decide)).2
    have hletters : ∀ a ∈ ":host-context".toList,
        a ∈ ":host".toList ∨ a ∈ contextMarker := by decide
    exact fun a ha => (hletters a ha).elim (hhost a) (hmarker a)
  rw [mark, replace_append_cons (by decide) hcontext, replace_append_cons (by decide) hhost,
    mark, mark]

/-! ## Combinators -/

theorem flattenCombinators_of_lacks (h : Lacks piercing t) : flattenCombinators t = t := by
  have hword : ∀ w ∈ piercing, replace w.1 w.2 [' '] t = t :=
    fun w hw => replace_of_not_includes (h w hw) _
  simp only [piercing, List.forall_mem_cons] at hword
  obtain ⟨hshadow, hcontent, hdeep, hslash, -⟩ := hword
  simp only [flattenCombinators, List.foldl_cons, List.foldl_nil]
  rw [hshadow, hcontent, hdeep, hslash]

/-- A piece that no combinator begins in or reaches into divides a text for them. -/
theorem flattenCombinators_append_append {p : Text}
    (hp : ∀ w ∈ piercing, ∀ x t, replace w.1 w.2 [' '] (x ++ (p ++ t)) =
      replace w.1 w.2 [' '] x ++ (p ++ replace w.1 w.2 [' '] t)) (x t : Text) :
    flattenCombinators (x ++ (p ++ t)) =
      flattenCombinators x ++ (p ++ flattenCombinators t) := by
  simp only [piercing, List.forall_mem_cons] at hp
  obtain ⟨hshadow, hcontent, hdeep, hslash, -⟩ := hp
  simp only [flattenCombinators, List.foldl_cons, List.foldl_nil]
  rw [hshadow, hcontent, hdeep, hslash]

/-- A character that stands in none of the combinators divides a text for them. -/
theorem flattenCombinators_append_cons (hc : Divides piercing c) (x t : Text) :
    flattenCombinators (x ++ c :: t) = flattenCombinators x ++ c :: flattenCombinators t :=
  @flattenCombinators_append_append [c]
    (fun w hw => replace_append_cons (hc w hw).1 (hc w hw).2 _) x t

/-- The anchor keeps what stands before it from what stands behind it. -/
theorem flattenCombinators_append_anchor (x t : Text) :
    flattenCombinators (x ++ (anchor ++ t)) =
      flattenCombinators x ++ (anchor ++ flattenCombinators t) := by
  have hanchor : ∀ w ∈ piercing, Shuts w.1 w.2 anchor ∧ Repels w.1 w.2 anchor := by decide
  exact flattenCombinators_append_append
    (fun w hw => replace_append_of_clashes (hanchor w hw).1 (hanchor w hw).2 _) x t

/-- In front of a text in which no combinator begins none is found. -/
theorem flattenCombinators_append_of_shuts (hx : ∀ w ∈ piercing, Shuts w.1 w.2 x) (t : Text) :
    flattenCombinators (x ++ t) = x ++ flattenCombinators t := by
  have hword : ∀ w ∈ piercing, ∀ t, replace w.1 w.2 [' '] (x ++ t) =
      x ++ replace w.1 w.2 [' '] t := fun w hw t =>
    ((Reader.awaitsLiteral_literal w.1 w.2).passes_of_shuts (hx w hw) t).substitute_append _
  simp only [piercing, List.forall_mem_cons] at hword
  obtain ⟨hshadow, hcontent, hdeep, hslash, -⟩ := hword
  simp only [flattenCombinators, List.foldl_cons, List.foldl_nil]
  rw [hshadow, hcontent, hdeep, hslash]

theorem mem_flattenCombinators (h : c ∈ flattenCombinators t) : c ∈ t ∨ c = ' ' := by
  simp only [flattenCombinators, List.foldl_cons, List.foldl_nil] at h
  have hword : ∀ {m w u}, c ∈ replace m w [' '] u → c ∈ u ∨ c = ' ' :=
    fun hmem => (mem_replace hmem).imp_right List.mem_singleton.mp
  exact (hword h).elim (fun h => (hword h).elim (fun h => (hword h).elim hword .inr) .inr) .inr

theorem flattenCombinators_intercalate (pieces : List Text) :
    flattenCombinators ([','].intercalate pieces) =
      [','].intercalate (pieces.map flattenCombinators) := by
  induction pieces with
  | nil =>
    show flattenCombinators [] = []
    exact flattenCombinators_of_lacks (by decide)
  | cons p pieces ih =>
    cases pieces with
    | nil => simp
    | cons q pieces =>
      rw [List.map_cons] at ih
      rw [List.intercalate_cons_cons, List.append_assoc, List.singleton_append,
        flattenCombinators_append_cons (by decide), ih]
      simp [List.intercalate_cons_cons]

/-! ## All passes -/

/-- A plain text is normalized already. -/
theorem normalize_of_isPlain (h : IsPlain t) : normalize t = t := by
  obtain ⟨hnames, hpiercing⟩ := isPlain_iff.mp h
  obtain ⟨hhost, hmarker, hcontext⟩ := lacks_names_iff.mp hnames
  rw [normalize, mark_of_not_includes hhost,
    Reader.substitute_of_not_includes awaitsLiteral_hostReader hmarker,
    Reader.substitute_of_not_includes awaitsLiteral_contextReader hcontext,
    flattenCombinators_of_lacks hpiercing]

/-- Behind a text that does not name the host, and a character that stands in none of the words, a
text is normalized as if it began there. -/
theorem normalize_append_cons (hx : Lacks names x) (hc : Divides words c) (t : Text) :
    normalize (x ++ c :: t) = flattenCombinators x ++ c :: normalize t := by
  obtain ⟨hhost, hmarker, hcontext⟩ := lacks_names_iff.mp hx
  have hdivides := divides_names hc
  simp only [Divides, names, List.forall_mem_cons] at hdivides
  obtain ⟨-, hm, hcm, -⟩ := hdivides
  rw [normalize, mark_append_cons hc, mark_of_not_includes hhost,
    Reader.substitute_append_cons awaitsLiteral_hostReader hmarker hm.1 hm.2,
    Reader.substitute_append_cons awaitsLiteral_contextReader hcontext hcm.1 hcm.2,
    flattenCombinators_append_cons (fun w hw => hc w (List.mem_append_right _ hw)), normalize]

end ScopedStyles.Host
