import Mathlib.Data.List.Forall2
import ScopedStyles.Proofs.Selector.Deep
import ScopedStyles.Proofs.Selector.Lines
import ScopedStyles.Proofs.Selector.Strict

/-!
# Other blanks

Two selectors that differ in their blanks only are scoped alike in strict mode
(`Scope.selector_respaced`), as long as the blanks between two compound selectors hold a space in
both or in neither. A tab or a line break by itself is no combinator: what stands on its two sides
is one compound selector, and gets one content attribute (`Scope.selector_tab`).
-/

namespace ScopedStyles

open Text

namespace Selector

variable {b b' k k' t t' x x' : Text} {c : Char}

/-! ## Texts with other blanks -/

/-- Two texts that differ in their blanks only. Blanks that stand by themselves do so in both, with
a space among them in both or in neither; beside a sign any blanks will do, and none. -/
inductive Respaced : Text → Text → Prop where
  /-- Nothing is left. -/
  | nil : Respaced [] []
  /-- Both go on with the same character. -/
  | ink {c : Char} {t t' : Text} (hc : ¬ isBlank c) (h : Respaced t t') :
      Respaced (c :: t) (c :: t')
  /-- Both go on with blanks. -/
  | gap {b b' t t' : Text} (hb : ∀ d ∈ b, isBlank d) (hb' : ∀ d ∈ b', isBlank d)
      (hne : b ≠ [] ∧ b' ≠ []) (hspace : ' ' ∈ b ↔ ' ' ∈ b') (h : Respaced t t') :
      Respaced (b ++ t) (b' ++ t')
  /-- Both go on with the same sign, each with blanks of its own around it. -/
  | sign {c : Char} {b b' d d' t t' : Text} (hc : isSign c) (hb : ∀ e ∈ b, isBlank e)
      (hb' : ∀ e ∈ b', isBlank e) (hd : ∀ e ∈ d, isBlank e) (hd' : ∀ e ∈ d', isBlank e)
      (h : Respaced t t') : Respaced (b ++ c :: (d ++ t)) (b' ++ c :: (d' ++ t'))

/-- Runs of blanks are alike. -/
theorem alike_blanks (hb : ∀ d ∈ b, isBlank d) (hb' : ∀ d ∈ b', isBlank d) (hne : b ≠ [])
    (hne' : b' ≠ []) : Alike b b' :=
  fun u => (squeeze_blanks hb hne u).trans (squeeze_blanks hb' hne' u).symm

theorem isCombinator_of_isSign (hc : isSign c) : isCombinator c := isCombinator_iff.mpr (.inr hc)

namespace Respaced

theorem alike (h : Respaced t t') : Alike t t' := by
  induction h with
  | nil => exact Alike.refl _
  | @ink c t t' hc h ih => exact (Alike.refl [c]).append ih
  | gap hb hb' hne hspace h ih => exact (alike_blanks hb hb' hne.1 hne.2).append ih
  | @sign c b b' d d' t t' hc hb hb' hd hd' h ih =>
    have hcombinator := isCombinator_of_isSign hc
    have hsign : Alike (b ++ c :: d) (b' ++ c :: d') :=
      (alike_combinator hcombinator hb hd).trans (alike_combinator hcombinator hb' hd').symm
    simpa using hsign.append ih

theorem eq_nil_iff (h : Respaced t t') : t = [] ↔ t' = [] := by
  cases h <;> simp_all

theorem append (h : Respaced t t') (hx : Respaced x x') : Respaced (t ++ x) (t' ++ x') := by
  induction h with
  | nil => exact hx
  | ink hc h ih => exact ih.ink hc
  | gap hb hb' hne hspace h ih =>
    rw [List.append_assoc, List.append_assoc]
    exact ih.gap hb hb' hne hspace
  | sign hc hb hb' hd hd' h ih =>
    simp only [List.append_assoc, List.cons_append]
    exact ih.sign hc hb hb' hd hd'

theorem of_blanks (hb : ∀ d ∈ b, isBlank d) (hb' : ∀ d ∈ b', isBlank d) (hne : b ≠ [] ∧ b' ≠ [])
    (hspace : ' ' ∈ b ↔ ' ' ∈ b') : Respaced b b' := by
  simpa using nil.gap hb hb' hne hspace

theorem of_sign {d d' : Text} (hc : isSign c) (hb : ∀ e ∈ b, isBlank e) (hb' : ∀ e ∈ b', isBlank e)
    (hd : ∀ e ∈ d, isBlank e) (hd' : ∀ e ∈ d', isBlank e) :
    Respaced (b ++ c :: d) (b' ++ c :: d') := by
  simpa using nil.sign hc hb hb' hd hd'

theorem reverse (h : Respaced t t') : Respaced t.reverse t'.reverse := by
  have hblanks : ∀ {b : Text}, (∀ d ∈ b, isBlank d) → ∀ d ∈ b.reverse, isBlank d :=
    fun hb d hd => hb d (List.mem_reverse.mp hd)
  induction h with
  | nil => exact .nil
  | ink hc h ih =>
    rw [List.reverse_cons, List.reverse_cons]
    exact ih.append (nil.ink hc)
  | gap hb hb' hne hspace h ih =>
    rw [List.reverse_append, List.reverse_append]
    exact ih.append (of_blanks (hblanks hb) (hblanks hb') (by simpa using hne)
      (by simpa using hspace))
  | sign hc hb hb' hd hd' h ih =>
    have hsign := of_sign hc (hblanks hd) (hblanks hd') (hblanks hb) (hblanks hb')
    simpa using ih.append hsign

theorem trimStart (h : Respaced t t') : Respaced (trimStart t) (trimStart t') := by
  have hnil : ∀ e ∈ ([] : Text), isBlank e := fun e he => absurd he List.not_mem_nil
  induction h with
  | nil => exact .nil
  | ink hc h ih =>
    rw [trimStart_cons hc, trimStart_cons hc]
    exact h.ink hc
  | gap hb hb' hne hspace h ih =>
    rwa [trimStart_append_of_blanks hb, trimStart_append_of_blanks hb']
  | sign hc hb hb' hd hd' h ih =>
    have hblank := not_isBlank_of_isSign hc
    rw [trimStart_append_of_blanks hb, trimStart_append_of_blanks hb', trimStart_cons hblank,
      trimStart_cons hblank]
    exact h.sign hc hnil hnil hd hd'

theorem trim (h : Respaced t t') : Respaced (trim t) (trim t') :=
  h.trimStart.reverse.trimStart.reverse

/-- Neither blanks nor signs are colons. -/
theorem split_colon (h : Respaced t t') :
    Respaced (t.takeWhile (· != ':')) (t'.takeWhile (· != ':')) ∧
      Respaced (t.dropWhile (· != ':')) (t'.dropWhile (· != ':')) := by
  have hne : ∀ {x : Text}, ':' ∉ x → ∀ d ∈ x, (d != ':') = true := by
    intro x hx d hd
    rw [bne_iff_ne]
    rintro rfl
    exact hx hd
  have hstep : ∀ {x x' t t' : Text}, ':' ∉ x → ':' ∉ x' → Respaced x x' →
      (Respaced (t.takeWhile (· != ':')) (t'.takeWhile (· != ':')) ∧
        Respaced (t.dropWhile (· != ':')) (t'.dropWhile (· != ':'))) →
      Respaced ((x ++ t).takeWhile (· != ':')) ((x' ++ t').takeWhile (· != ':')) ∧
        Respaced ((x ++ t).dropWhile (· != ':')) ((x' ++ t').dropWhile (· != ':')) := by
    intro x x' t t' hx hx' hrespaced ih
    rw [List.takeWhile_append_of_pos (hne hx), List.takeWhile_append_of_pos (hne hx'),
      List.dropWhile_append_of_pos (hne hx), List.dropWhile_append_of_pos (hne hx')]
    exact ⟨hrespaced.append ih.1, ih.2⟩
  have hblanks : ∀ {b : Text}, (∀ d ∈ b, isBlank d) → ':' ∉ b :=
    fun hb hmem => absurd (hb ':' hmem) (by decide)
  induction h with
  | nil => exact ⟨.nil, .nil⟩
  | @ink c t t' hc h ih =>
    by_cases hcolon : c = ':'
    · rw [hcolon] at hc ⊢
      exact ⟨.nil, h.ink hc⟩
    · have hmem : ':' ∉ [c] := by simpa using Ne.symm hcolon
      exact hstep hmem hmem (nil.ink hc) ih
  | gap hb hb' hne hspace h ih =>
    exact hstep (hblanks hb) (hblanks hb') (of_blanks hb hb' hne hspace) ih
  | @sign c b b' d d' t t' hc hb hb' hd hd' h ih =>
    have hcolon : ':' ≠ c := by
      rintro rfl
      exact absurd hc (by decide)
    have hmem : ∀ {b d : Text}, ':' ∉ b → ':' ∉ d → ':' ∉ b ++ c :: d := by
      intro b d hb hd
      simp [hb, hd, hcolon]
    simpa using hstep (hmem (hblanks hb) (hblanks hd)) (hmem (hblanks hb') (hblanks hd'))
      (of_sign hc hb hb' hd hd') ih

end Respaced

/-- Two compound selectors that differ in their blanks only. -/
structure RespacedCompound (k k' : Text) : Prop where
  respaced : Respaced k k'
  run : ∀ d ∈ k, ¬ isCombinator d
  run' : ∀ d ∈ k', ¬ isCombinator d

theorem RespacedCompound.nil : RespacedCompound [] [] :=
  ⟨.nil, fun _ h => absurd h List.not_mem_nil, fun _ h => absurd h List.not_mem_nil⟩

theorem RespacedCompound.append (h : RespacedCompound k k') (hx : RespacedCompound x x') :
    RespacedCompound (k ++ x) (k' ++ x') :=
  ⟨h.respaced.append hx.respaced, List.forall_mem_append.mpr ⟨h.run, hx.run⟩,
    List.forall_mem_append.mpr ⟨h.run', hx.run'⟩⟩

end Selector

namespace Scope

open Selector

variable {s : Scope} {b k k' t t' v : Text} {c : Char}

/-! ## Compound selectors -/

theorem compound_respaced (h : Respaced k k') (hk : ¬ includes .anyCase Host.marker k)
    (hk' : ¬ includes .anyCase Host.marker k') : Alike (s.compound k) (s.compound k') := by
  have hnil := h.trim.eq_nil_iff
  by_cases hne : trim k = []
  · rw [compound, if_pos hne, compound, if_pos (hnil.mp hne)]
    exact Alike.refl _
  · obtain ⟨hbefore, hbehind⟩ := h.split_colon
    rw [compound_of_not_includes hne hk, compound_of_not_includes (hnil.not.mp hne) hk']
    exact (hbefore.alike.append (Alike.refl _)).append hbehind.alike

/-- A space ends a compound selector, with all the blanks around it. -/
theorem inside_append_gap (hk : ∀ d ∈ k, ¬ isCombinator d) (hb : ∀ d ∈ b, isBlank d)
    (hspace : ' ' ∈ b) (v : Text) :
    s.inside (k ++ (b ++ v)) =
      s.compound (trim k) ++ ("   ".toList ++ s.inside (trimStart v)) := by
  obtain ⟨b₁, b₂, rfl, hfirst⟩ := List.eq_append_cons_of_mem hspace
  rw [List.forall_mem_append, List.forall_mem_cons] at hb
  have hrun : ∀ d ∈ k ++ b₁, ¬ isCombinator d :=
    List.forall_mem_append.mpr ⟨hk, not_isCombinator_of_blanks hb.1 hfirst⟩
  have hwhole : k ++ (b₁ ++ ' ' :: b₂ ++ v) = k ++ b₁ ++ ' ' :: (b₂ ++ v) := by simp
  rw [hwhole, inside_append_cons hrun (by decide), trim_append_of_blanks hb.1,
    trimStart_append_of_blanks hb.2.2]
  rfl

/-- Up to spacing, a sign ends a compound selector with all the blanks around it. -/
theorem inside_append_sign_alike (hk : ∀ d ∈ k, ¬ isCombinator d) (hb : ∀ d ∈ b, isBlank d)
    (hc : isSign c) (v : Text) :
    Alike (s.inside (k ++ (b ++ c :: v)))
      (s.compound (trim k) ++ ([' ', c, ' '] ++ s.inside (trimStart v))) := by
  have hcombinator := isCombinator_of_isSign hc
  by_cases hspace : ' ' ∈ b
  · have hspaces : ∀ d ∈ "    ".toList, isBlank d := by decide
    have hone : ∀ d ∈ [' '], isBlank d := by decide
    rw [inside_append_gap hk hb hspace, trimStart_cons (not_isBlank_of_isSign hc),
      inside_cons hcombinator, ← List.append_assoc "   ".toList]
    exact (Alike.refl _).append (((alike_combinator hcombinator hspaces hone).trans
      (alike_combinator hcombinator hone hone).symm).append (Alike.refl _))
  · have hrun : ∀ d ∈ k ++ b, ¬ isCombinator d :=
      List.forall_mem_append.mpr ⟨hk, not_isCombinator_of_blanks hb hspace⟩
    rw [← List.append_assoc, inside_append_cons hrun hcombinator, trim_append_of_blanks hb]
    exact Alike.refl _

/-! ## Complex selectors -/

/-- What is left of two selectors is scoped alike: behind compound selectors that are going on, and
behind a combinator and its blanks. -/
structure GoesOnAlike (s : Scope) (t t' : Text) : Prop where
  running : ∀ k k', RespacedCompound k k' → ¬ includes .anyCase Host.marker (k ++ t) →
    ¬ includes .anyCase Host.marker (k' ++ t') → Alike (s.inside (k ++ t)) (s.inside (k' ++ t'))
  starting : ¬ includes .anyCase Host.marker t → ¬ includes .anyCase Host.marker t' →
    Alike (s.inside (trimStart t)) (s.inside (trimStart t'))

theorem not_includes_left {x u : Text} (h : ¬ includes .anyCase Host.marker (x ++ u)) :
    ¬ includes .anyCase Host.marker x :=
  not_includes_of_isInfix (List.prefix_append x u).isInfix h

theorem not_includes_right {x u : Text} (h : ¬ includes .anyCase Host.marker (x ++ u)) :
    ¬ includes .anyCase Host.marker u :=
  not_includes_of_isInfix (List.suffix_append x u).isInfix h

theorem compound_trim_respaced (h : Respaced k k') (hk : ¬ includes .anyCase Host.marker k)
    (hk' : ¬ includes .anyCase Host.marker k') :
    Alike (s.compound (trim k)) (s.compound (trim k')) :=
  compound_respaced h.trim (not_includes_of_isInfix (trim_isInfix k) hk)
    (not_includes_of_isInfix (trim_isInfix k') hk')

namespace GoesOnAlike

theorem nil : s.GoesOnAlike [] [] where
  running k k' hk hmarker hmarker' := by
    rw [List.append_nil] at hmarker hmarker' ⊢
    rw [List.append_nil, inside_of_run hk.run, inside_of_run hk.run']
    exact compound_respaced hk.respaced hmarker hmarker'
  starting _ _ := Alike.refl _

theorem gap (h : s.GoesOnAlike t t') (hb : ∀ d ∈ b, isBlank d) (hb' : ∀ d ∈ b', isBlank d)
    (hne : b ≠ [] ∧ b' ≠ []) (hspace : ' ' ∈ b ↔ ' ' ∈ b') :
    s.GoesOnAlike (b ++ t) (b' ++ t') where
  running k k' hk hmarker hmarker' := by
    by_cases hmem : ' ' ∈ b
    · have hcompound : Alike (s.compound (trim k)) (s.compound (trim k')) :=
        compound_trim_respaced hk.respaced (not_includes_left hmarker) (not_includes_left hmarker')
      have hstart := h.starting (not_includes_right (not_includes_right hmarker))
        (not_includes_right (not_includes_right hmarker'))
      rw [inside_append_gap hk.run hb hmem, inside_append_gap hk.run' hb' (hspace.mp hmem)]
      exact hcompound.append ((Alike.refl _).append hstart)
    · -- without a space the blanks belong to the compound selectors
      have hblanks : RespacedCompound b b' :=
        ⟨.of_blanks hb hb' hne hspace, not_isCombinator_of_blanks hb hmem,
          not_isCombinator_of_blanks hb' (hspace.not.mp hmem)⟩
      rw [← List.append_assoc] at hmarker hmarker' ⊢
      rw [← List.append_assoc]
      exact h.running _ _ (hk.append hblanks) hmarker hmarker'
  starting hmarker hmarker' := by
    rw [trimStart_append_of_blanks hb, trimStart_append_of_blanks hb']
    exact h.starting (not_includes_right hmarker) (not_includes_right hmarker')

theorem sign {d d' : Text} (h : s.GoesOnAlike t t') (hc : isSign c) (hb : ∀ e ∈ b, isBlank e)
    (hb' : ∀ e ∈ b', isBlank e) (hd : ∀ e ∈ d, isBlank e) (hd' : ∀ e ∈ d', isBlank e) :
    s.GoesOnAlike (b ++ c :: (d ++ t)) (b' ++ c :: (d' ++ t')) := by
  have hstart : ¬ includes .anyCase Host.marker (c :: (d ++ t)) →
      ¬ includes .anyCase Host.marker (c :: (d' ++ t')) →
        Alike ([' ', c, ' '] ++ s.inside (trimStart (d ++ t)))
          ([' ', c, ' '] ++ s.inside (trimStart (d' ++ t'))) := by
    intro hmarker hmarker'
    have hrest : ∀ {d t : Text}, ¬ includes .anyCase Host.marker (c :: (d ++ t)) →
        ¬ includes .anyCase Host.marker t :=
      fun h => not_includes_right (not_includes_right (x := [c]) h)
    rw [trimStart_append_of_blanks hd, trimStart_append_of_blanks hd']
    exact (Alike.refl _).append (h.starting (hrest hmarker) (hrest hmarker'))
  refine ⟨fun k k' hk hmarker hmarker' => ?_, fun hmarker hmarker' => ?_⟩
  · have hcompound : Alike (s.compound (trim k)) (s.compound (trim k')) :=
      compound_trim_respaced hk.respaced (not_includes_left hmarker) (not_includes_left hmarker')
    have hlink := hcompound.append (hstart (not_includes_right (not_includes_right hmarker))
      (not_includes_right (not_includes_right hmarker')))
    exact ((inside_append_sign_alike hk.run hb hc _).trans hlink).trans
      (inside_append_sign_alike hk.run' hb' hc _).symm
  · have hblank := not_isBlank_of_isSign hc
    have hcombinator := isCombinator_of_isSign hc
    rw [trimStart_append_of_blanks hb, trimStart_append_of_blanks hb', trimStart_cons hblank,
      trimStart_cons hblank, inside_cons hcombinator, inside_cons hcombinator]
    exact hstart (not_includes_right hmarker) (not_includes_right hmarker')

theorem ink (h : s.GoesOnAlike t t') (hc : ¬ isBlank c) : s.GoesOnAlike (c :: t) (c :: t') := by
  by_cases hcombinator : isCombinator c
  · have hsign : isSign c := (isCombinator_iff.mp hcombinator).resolve_left fun hspace =>
      hc (hspace ▸ by decide)
    have hnil : ∀ d ∈ ([] : Text), isBlank d := fun d hd => absurd hd List.not_mem_nil
    exact h.sign hsign hnil hnil hnil hnil
  · have hone : RespacedCompound [c] [c] :=
      ⟨Respaced.nil.ink hc, List.forall_mem_singleton.mpr hcombinator,
        List.forall_mem_singleton.mpr hcombinator⟩
    have hrun : ∀ k k', RespacedCompound k k' → ¬ includes .anyCase Host.marker (k ++ c :: t) →
        ¬ includes .anyCase Host.marker (k' ++ c :: t') →
          Alike (s.inside (k ++ c :: t)) (s.inside (k' ++ c :: t')) := by
      intro k k' hk hmarker hmarker'
      have hwhole : ∀ k u : Text, k ++ c :: u = k ++ [c] ++ u := by simp
      rw [hwhole] at hmarker hmarker' ⊢
      rw [hwhole k']
      exact h.running _ _ (hk.append hone) hmarker hmarker'
    refine ⟨hrun, fun hmarker hmarker' => ?_⟩
    rw [trimStart_cons hc, trimStart_cons hc]
    exact hrun [] [] .nil hmarker hmarker'

end GoesOnAlike

theorem goesOnAlike (s : Scope) (h : Respaced t t') : s.GoesOnAlike t t' := by
  induction h with
  | nil => exact .nil
  | ink hc h ih => exact ih.ink hc
  | gap hb hb' hne hspace h ih => exact ih.gap hb hb' hne hspace
  | sign hc hb hb' hd hd' h ih => exact ih.sign hc hb hb' hd hd'

/-- Other blanks do not matter inside the component. -/
theorem inside_respaced (s : Scope) (h : Respaced t t') (ht : ¬ includes .anyCase Host.marker t)
    (ht' : ¬ includes .anyCase Host.marker t') : Alike (s.inside t) (s.inside t') :=
  (s.goesOnAlike h).running [] [] .nil ht ht'

/-! ## Alternatives -/

/-- Two alternatives that differ in their blanks only. Inside the component a space is among them in
both or in neither, and a line begins with the scope in both or in neither. -/
structure RespacedAlternative (s : Scope) (a a' : Text) : Prop where
  marker : ¬ includes .anyCase Host.marker a
  marker' : ¬ includes .anyCase Host.marker a'
  begins : isScoped s.content (innerPart a) ↔ isScoped s.content (innerPart a')
  inside : Respaced (innerPart a) (innerPart a')
  outside : List.Forall₂ Alike (outerParts a) (outerParts a')

theorem RespacedAlternative.alike {a a' : Text} (hmode : s.mode = .strict)
    (h : s.RespacedAlternative a a') : Alike (s.alternative a) (s.alternative a') := by
  have hmarker := not_includes_innerPart h.marker
  have hmarker' := not_includes_innerPart h.marker'
  have hshallow : Alike (s.shallow (innerPart a)) (s.shallow (innerPart a')) := by
    rw [shallow_strict hmode hmarker, shallow_strict hmode hmarker']
    by_cases hscoped : isScoped s.content (innerPart a)
    · rw [if_pos hscoped, if_pos (h.begins.mp hscoped)]
      exact h.inside.alike
    · rw [if_neg hscoped, if_neg (h.begins.not.mp hscoped)]
      exact s.inside_respaced h.inside hmarker hmarker'
  exact Alike.intercalate [' '] (.cons hshallow h.outside)

/-- The part of an alternative inside the component is a chain of descendants: these compound
selectors with blanks between them, and a space among the blanks. -/
structure IsDescendants (s : Scope) (a : Text) (compounds : List Text) : Prop where
  marker : ¬ includes .anyCase Host.marker a
  marker' : ¬ includes .anyCase Host.marker ([' '].intercalate compounds)
  unscoped : ¬ isScoped s.content (innerPart a)
  solid : ∀ k ∈ compounds, k ≠ [] ∧ ∀ c ∈ k, ¬ isBlank c ∧ ¬ isSign c
  inside : Respaced (innerPart a) ([' '].intercalate compounds)

/-- A chain of descendants, each compound selector scoped by itself. -/
theorem inside_intercalate {compounds : List Text}
    (h : ∀ k ∈ compounds, k ≠ [] ∧ ∀ c ∈ k, ¬ isBlank c ∧ ¬ isSign c)
    (hmarker : ¬ includes .anyCase Host.marker ([' '].intercalate compounds)) :
    Alike (s.inside ([' '].intercalate compounds))
      ([' '].intercalate (compounds.map (insertAttribute s.contentAttribute))) := by
  have hnil : ∀ d ∈ ([] : Text), ¬ isCombinator d := fun d hd => absurd hd List.not_mem_nil
  have hone : ∀ d ∈ [' '], isBlank d := by decide
  have hcompound : ∀ k : Text, k ≠ [] → (∀ c ∈ k, ¬ isBlank c ∧ ¬ isSign c) →
      ¬ includes .anyCase Host.marker k →
        (∀ d ∈ k, ¬ isCombinator d) ∧ trim k = k ∧
          s.compound k = insertAttribute s.contentAttribute k := by
    intro k hne hk hmarker
    have htrim : trim k = k := by
      rw [trim, trimStart_eq_self fun c hc => (hk c (List.mem_of_mem_head? hc)).1,
        trimEnd_eq_self fun c hc => (hk c (List.mem_of_getLast? hc)).1]
    refine ⟨fun d hd hcombinator => ?_, htrim,
      compound_of_not_includes (by rwa [htrim]) hmarker⟩
    rcases isCombinator_iff.mp hcombinator with rfl | hsign
    · exact (hk _ hd).1 (by decide)
    · exact (hk d hd).2 hsign
  induction compounds with
  | nil =>
    have hempty : s.inside [] = [] := inside_of_run hnil
    rw [List.map_nil, List.intercalate_nil, hempty]
    exact Alike.refl _
  | cons k ks ih =>
    rw [List.forall_mem_cons] at h
    cases ks with
    | nil =>
      rw [List.intercalate_singleton] at hmarker ⊢
      obtain ⟨hrun, -, hscoped⟩ := hcompound k h.1.1 h.1.2 hmarker
      rw [List.map_singleton, List.intercalate_singleton, inside_of_run hrun, hscoped]
      exact Alike.refl _
    | cons j ks =>
      rw [List.intercalate_cons_cons, List.append_assoc] at hmarker ⊢
      obtain ⟨hrun, htrim, hscoped⟩ := hcompound k h.1.1 h.1.2 (not_includes_left hmarker)
      have hstart : trimStart ([' '].intercalate (j :: ks)) = [' '].intercalate (j :: ks) := by
        obtain ⟨hne, hj⟩ := h.2 j List.mem_cons_self
        obtain ⟨u, hu⟩ := isPrefix_intercalate_cons [' '] j ks
        obtain ⟨c, i, rfl⟩ := List.exists_cons_of_ne_nil hne
        rw [← hu, List.cons_append, trimStart_cons (hj c List.mem_cons_self).1]
      have hrest := ih h.2 (not_includes_right (not_includes_right hmarker))
      rw [inside_append_gap hrun hone List.mem_cons_self, htrim, hscoped, hstart, List.map_cons,
        List.map_cons, List.intercalate_cons_cons, List.append_assoc, ← List.map_cons]
      exact (Alike.refl _).append
        ((alike_blanks (by decide) hone (by decide) (by decide)).append hrest)

/-- Each compound selector of a chain of descendants gets the content attribute. -/
theorem IsDescendants.alike {a : Text} {compounds : List Text} (hmode : s.mode = .strict)
    (h : s.IsDescendants a compounds) :
    Alike (s.alternative a)
      ([' '].intercalate
        ([' '].intercalate (compounds.map (insertAttribute s.contentAttribute)) ::
          outerParts a)) := by
  have hmarker := not_includes_innerPart h.marker
  have hshallow : s.shallow (innerPart a) = s.inside (innerPart a) := by
    rw [shallow_strict hmode hmarker, if_neg h.unscoped]
  have hinside := (s.inside_respaced h.inside hmarker h.marker').trans
    (inside_intercalate h.solid h.marker')
  rw [alternative_eq_intercalate, hshallow]
  exact Alike.intercalate [' '] (.cons hinside (List.forall₂_same.mpr fun t _ => Alike.refl t))

/-! ## Selector lists -/

/-- In strict mode, selector lists that differ in their blanks only are scoped alike, and each
compound selector of a chain of descendants gets the content attribute. -/
theorem selector_respaced {s : Scope} (hmode : s.mode = .strict) :
    (∀ t t' : Text, List.Forall₂ s.RespacedAlternative (split ',' t) (split ',' t') →
      Alike (s.selector t) (s.selector t')) ∧
    ∀ (a : Text) (compounds : List Text), s.IsDescendants a compounds →
      Alike (s.alternative a)
        ([' '].intercalate
          ([' '].intercalate (compounds.map (insertAttribute s.contentAttribute)) ::
            outerParts a)) := by
  refine ⟨fun t t' h => ?_, fun a compounds h => h.alike hmode⟩
  refine Alike.intercalate ", ".toList ?_
  rw [List.forall₂_map_left_iff, List.forall₂_map_right_iff]
  exact h.imp fun a a' ha => ha.alike hmode

/-- A tab beside a sign, and a line break beside a space. -/
theorem selector_respaced_list :
    let s : Scope := { content := "c".toList, host := "h".toList }
    Alike (s.selector "a >b,d\n e".toList) (s.selector "a\t>  b,d e".toList) ∧
      Alike (s.alternative "d\n e".toList) "d[c] e[c]".toList := by
  intro s
  have hsigns : Respaced ('a' :: ([' '] ++ '>' :: ([] ++ ['b'])))
      ('a' :: (['\t'] ++ '>' :: ([' ', ' '] ++ ['b']))) :=
    .ink (by decide) (.sign (by decide) (by decide) (by decide) (by decide) (by decide)
      (.ink (by decide) .nil))
  have hgap : Respaced ('d' :: (['\n', ' '] ++ ['e'])) ('d' :: ([' '] ++ ['e'])) :=
    .ink (by decide) (.gap (by decide) (by decide) (by decide) (by decide)
      (.ink (by decide) .nil))
  -- none of them leaves the component
  have hpieces : ∀ a ∈ ["a >b".toList, "a\t>  b".toList, "d\n e".toList, "d e".toList],
      innerPart a = a ∧ outerParts a = [] := by decide +kernel
  simp only [List.forall_mem_cons] at hpieces
  obtain ⟨⟨hinner₁, houter₁⟩, ⟨hinner₂, houter₂⟩, ⟨hinner₃, houter₃⟩, ⟨hinner₄, houter₄⟩, -⟩ :=
    hpieces
  have hfirst : s.RespacedAlternative "a >b".toList "a\t>  b".toList := by
    refine ⟨by decide +kernel, by decide +kernel, by decide +kernel, ?_, ?_⟩
    · rw [hinner₁, hinner₂]
      exact hsigns
    · rw [houter₁, houter₂]
      exact .nil
  have hsecond : s.RespacedAlternative "d\n e".toList "d e".toList := by
    refine ⟨by decide +kernel, by decide +kernel, by decide +kernel, ?_, ?_⟩
    · rw [hinner₃, hinner₄]
      exact hgap
    · rw [houter₃, houter₄]
      exact .nil
  have hchain : s.IsDescendants "d\n e".toList ["d".toList, "e".toList] := by
    refine ⟨by decide +kernel, by decide +kernel, by decide +kernel, by decide +kernel, ?_⟩
    rw [hinner₃]
    exact hgap
  obtain ⟨halike, hscoped⟩ := @selector_respaced s rfl
  refine ⟨halike _ _ (.cons hfirst (.cons hsecond .nil)), ?_⟩
  have hwritten : [' '].intercalate
      (["d".toList, "e".toList].map (insertAttribute s.contentAttribute)) =
        "d[c] e[c]".toList := by decide +kernel
  have halone := hscoped _ _ hchain
  rwa [houter₃, List.intercalate_singleton, hwritten] at halone

/-- With a tab between them, two compound selectors are scoped as one. -/
theorem selector_tab :
    let s : Scope := { content := "c".toList, host := "h".toList }
    let t := "a b".toList
    let t' := "a\tb".toList
    (squeeze t = squeeze t' ∧ ¬ includes .anyCase Host.marker t ∧
        ¬ includes .anyCase Host.marker t' ∧ ¬ Opens s.content t ∧ ¬ Opens s.content t') ∧
      s.selector t = "a[c]   b[c]".toList ∧ s.selector t' = "a\tb[c]".toList ∧
      squeeze (s.selector t) ≠ squeeze (s.selector t') := by
  decide +kernel

end Scope

end ScopedStyles
