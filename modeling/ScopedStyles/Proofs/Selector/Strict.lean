import ScopedStyles.Proofs.Selector.Spacing

/-!
# Selectors in strict mode

In strict mode the alternatives of a selector list are scoped one by one. An alternative that names
no host element, does not leave the component and is not scoped already gets the content attribute
in each of its compound selectors, and nothing else changes but its spacing
(`Scope.selector_places`).
-/

namespace ScopedStyles

open Text

namespace Selector

variable {b x : Text} {c : Char}

/-! ## Blanks at the ends -/

/-- A text with as few blanks as it needs, and none at its ends. -/
def tidy (t : Text) : Text := trimStart (squeeze t)

theorem squeeze_of_blanks (hb : ∀ c ∈ b, isBlank c) : squeeze b = [] := by
  by_cases hnil : b = []
  · rw [hnil, squeeze]
  · have h := squeeze_blanks hb hnil []
    rw [List.append_nil] at h
    exact h

theorem tidy_append_of_blanks (hb : ∀ c ∈ b, isBlank c) (x : Text) : tidy (x ++ b) = tidy x := by
  have hnil : squeeze b = squeeze [] := squeeze_of_blanks hb
  have h := squeeze_append hnil x
  rw [List.append_nil] at h
  rw [tidy, tidy, h]

theorem tidy_append_left_of_blanks (hb : ∀ c ∈ b, isBlank c) (x : Text) :
    tidy (b ++ x) = tidy x := by
  by_cases hnil : b = []
  · rw [hnil, List.nil_append]
  · rw [tidy, tidy, squeeze_blanks hb hnil, trimStart_spaceBefore]

theorem place_of_blanks (added : Text) (hb : ∀ c ∈ b, isBlank c) : place added b = b := by
  have hnil : trimStart b = [] := List.dropWhile_eq_nil_iff.mpr hb
  rw [place, hnil]

theorem place_cons (added : Text) (hc : ¬ isBlank c) (u : Text) :
    place added (c :: u) = insertAttribute added (c :: trimEnd u) ++ blanksAtEnd u := by
  have htake : (c :: u).takeWhile isBlank = [] := List.takeWhile_cons_of_neg hc
  have hend : trimEnd (c :: u) = c :: trimEnd u := trimEnd_append_cons hc [] u
  have hblanks : blanksAtEnd (c :: u) = blanksAtEnd u := blanksAtEnd_append_cons hc [] u
  unfold place
  rw [trimStart_cons hc]
  simp only [htake, hend, hblanks, List.nil_append]

/-- Blanks behind a compound selector stay there. -/
theorem place_append_right_of_blanks (added : Text) (hb : ∀ c ∈ b, isBlank c) (x : Text) :
    place added (x ++ b) = place added x ++ b := by
  have hbefore : ∀ c ∈ x.takeWhile isBlank, isBlank c := fun c hc => List.mem_takeWhile_imp hc
  have hx : x.takeWhile isBlank ++ trimStart x = x := List.takeWhile_append_dropWhile
  rw [← hx, List.append_assoc, place_append_of_blanks added hbefore,
    place_append_of_blanks added hbefore, List.append_assoc]
  cases hinner : trimStart x with
  | nil => rw [List.nil_append, place_of_blanks added hb, place, trimStart, List.dropWhile_nil,
      List.nil_append]
  | cons c u =>
    have hc : ¬ isBlank c := not_isBlank_of_head?_trimStart (by rw [hinner]; rfl)
    rw [List.cons_append, place_cons added hc, place_cons added hc, trimEnd_append_of_blanks hb,
      blanksAtEnd_append_of_blanks hb, List.append_assoc]

/-- Of the blanks only the space is a combinator. -/
theorem not_isCombinator_of_blanks (hb : ∀ c ∈ b, isBlank c) (hspace : ' ' ∉ b) :
    ∀ c ∈ b, ¬ isCombinator c := by
  intro c hc hcombinator
  rcases isCombinator_iff.mp hcombinator with rfl | hsign
  · exact hspace hc
  · exact not_isBlank_of_isSign hsign (hb c hc)

theorem eachCompound_nil (added : Text) : eachCompound (place added) [] = [] :=
  eachCompound_of_run _ fun _ h => absurd h List.not_mem_nil

/-- Blanks behind a selector stay there. -/
theorem eachCompound_append_right_of_blanks (added : Text) (hb : ∀ c ∈ b, isBlank c) (x : Text) :
    eachCompound (place added) (x ++ b) = eachCompound (place added) x ++ b := by
  induction x using chain_induction with
  | run k hk =>
    by_cases hspace : ' ' ∈ b
    · obtain ⟨b₁, b₂, rfl, hfirst⟩ := List.eq_append_cons_of_mem hspace
      rw [List.forall_mem_append, List.forall_mem_cons] at hb
      have hrun : ∀ d ∈ k ++ b₁, ¬ isCombinator d :=
        List.forall_mem_append.mpr ⟨hk, not_isCombinator_of_blanks hb.1 hfirst⟩
      have hbehind : eachCompound (place added) b₂ = b₂ := by
        have h := eachCompound_append_of_blanks added hb.2.2 []
        rwa [List.append_nil, eachCompound_nil, List.append_nil] at h
      rw [← List.append_assoc, eachCompound_append_cons _ hrun (by decide), hbehind,
        eachCompound_of_run _ hk, place_append_right_of_blanks added hb.1]
      simp
    · have hrun : ∀ d ∈ k ++ b, ¬ isCombinator d :=
        List.forall_mem_append.mpr ⟨hk, not_isCombinator_of_blanks hb hspace⟩
      rw [eachCompound_of_run _ hrun, eachCompound_of_run _ hk,
        place_append_right_of_blanks added hb]
  | link k c t hk hc ih =>
    -- what stands behind the combinator may begin with blanks of its own
    have hstart : ∀ u, eachCompound (place added) (t ++ u) =
        t.takeWhile isBlank ++ eachCompound (place added) (trimStart t ++ u) := by
      intro u
      rw [← eachCompound_append_of_blanks added fun d hd => List.mem_takeWhile_imp hd,
        ← List.append_assoc, trimStart, List.takeWhile_append_dropWhile]
    have hself := hstart []
    rw [List.append_nil, List.append_nil] at hself
    rw [List.append_assoc, List.cons_append, eachCompound_append_cons _ hk hc,
      eachCompound_append_cons _ hk hc, hstart, ih, hself]
    simp

/-- The blanks at the ends of a selector stay there. -/
theorem tidy_eachCompound_trim (added x : Text) :
    tidy (eachCompound (place added) (trim x)) = tidy (eachCompound (place added) x) := by
  obtain ⟨b, b', hb, hb', hx⟩ := exists_blanks_of_trim x
  conv => rhs; rw [hx]
  rw [eachCompound_append_of_blanks added hb, eachCompound_append_right_of_blanks added hb',
    tidy_append_left_of_blanks hb, tidy_append_of_blanks hb']

end Selector

namespace Scope

open Selector

variable {s : Scope} {t : Text}

/-- A selector all of whose compound selectors are inside the component: it does not name the host
element, has no deep combinator and is not scoped already. -/
structure IsInside (s : Scope) (t : Text) : Prop where
  marker : ¬ includes .anyCase Host.marker t
  deep : Lacks deep t
  unscoped : ¬ isScoped s.content (trim t)

theorem IsInside.alternative_eq (h : s.IsInside t) (hmode : s.mode = .strict) :
    s.alternative t = s.inside (trim t) := by
  have hmarker : ¬ includes .anyCase Host.marker (trim t) :=
    not_includes_of_isInfix (trim_isInfix t) h.marker
  have hbetween := between_of_lacks (h.deep.of_isInfix (trim_isInfix t))
  have hstrictly : s.shallow (trim t) = s.strictly (trim t) := by
    rw [shallow, if_neg h.unscoped, hmode]
  rw [alternative, hbetween]
  simp only [List.intercalate_singleton]
  rw [hstrictly, strictly_of_not_includes (Host.not_includes_anchor hmarker)]

/-- In strict mode the alternatives of a selector list are scoped one by one, and one that is inside
the component gets the content attribute in each compound selector: before its first colon, or at
its end. -/
theorem selector_places {s : Scope} (hmode : s.mode = .strict) (t : Text) :
    s.selector t = ", ".toList.intercalate ((split ',' t).map s.alternative) ∧
      ∀ a ∈ split ',' t, s.IsInside a →
        tidy (s.alternative a) = tidy (eachCompound (place s.contentAttribute) a) := by
  refine ⟨rfl, fun a ha hinside => ?_⟩
  have hmarker : ¬ includes .anyCase Host.marker (trim a) :=
    not_includes_of_isInfix (trim_isInfix a) hinside.marker
  have halike := @inside_alike s _ hmarker (fun _ => not_isBlank_of_head?_trim)
    fun _ => not_isBlank_of_getLast?_trimEnd
  rw [hinside.alternative_eq hmode, tidy, halike.squeeze_eq, ← tidy, tidy_eachCompound_trim]

/-- A pseudo-class and a pseudo-element, a tab, a combinator at the end, and a scope to unwrap. -/
theorem selector_places_list :
    let s : Scope := { content := "[is=x-foo]".toList, host := "h".toList }
    tidy (s.alternative " a.b\t >\n c:hover::before  d ~".toList) =
        "a.b[x-foo]>c[x-foo]:hover::before d[x-foo]~".toList ∧
      tidy (s.alternative "e\tf+ g[x] ".toList) = "e f[x-foo]+g[x][x-foo]".toList := by
  intro s
  have hplaces := (@selector_places s rfl
    " a.b\t >\n c:hover::before  d ~,e\tf+ g[x] ".toList).2
  have hsplit : split ',' " a.b\t >\n c:hover::before  d ~,e\tf+ g[x] ".toList =
      [" a.b\t >\n c:hover::before  d ~".toList, "e\tf+ g[x] ".toList] := by decide +kernel
  rw [hsplit, List.forall_mem_cons, List.forall_mem_singleton] at hplaces
  obtain ⟨hfirst, hsecond⟩ := hplaces
  refine ⟨(hfirst ⟨by decide +kernel, by decide +kernel, by decide +kernel⟩).trans ?_,
    (hsecond ⟨by decide +kernel, by decide +kernel, by decide +kernel⟩).trans ?_⟩
  · decide +kernel
  · decide +kernel

end Scope

end ScopedStyles
