import ScopedStyles.Proofs.Selector.Anchored

/-!
# Selectors that begin with the scope

A selector that begins with the scope is left alone, unless the scope goes on there as a longer
name (`Selector.Opens`). The scope is looked for at the beginning of every line: a selector counts
as scoped if it begins with the scope itself or one of its later lines does (`isScoped_iff_opens`),
so that a line break inside a selector can keep it from being scoped (`isScoped_second_line`).
-/

namespace ScopedStyles.Selector

open Text

variable {scope t u x b : Text} {c : Char}

/-! ## Beginnings -/

/-- A text begins with the scope, and what follows is empty or begins with a blank or with one of
the characters that can follow a name in a selector. -/
def Opens (scope t : Text) : Prop :=
  ∃ rest, t = scope ++ rest ∧ ∀ c ∈ rest.head?, isBlank c ∨ c ∈ ">~+[.,\x7b:".toList

theorem beginsWith_iff : beginsWith scope t ↔ Opens scope t := by
  have hboundary : ∀ c, isBoundary c ↔ isBlank c ∨ c ∈ ">~+[.,\x7b:".toList := by
    intro c
    rw [isBoundary, Bool.or_eq_true, List.contains_iff_mem]
  unfold beginsWith
  constructor
  · intro h
    split at h
    · rename_i hafter
      exact ⟨[], after?_exact.mp hafter, by simp⟩
    · rename_i c rest hafter
      refine ⟨c :: rest, after?_exact.mp hafter, ?_⟩
      rintro d ⟨rfl⟩
      exact (hboundary _).mp h
    · cases h
  · rintro ⟨rest, hrest, hhead⟩
    rw [after?_exact.mpr hrest]
    cases rest with
    | nil => rfl
    | cons c rest => exact (hboundary c).mpr (hhead c rfl)

instance (scope t : Text) : Decidable (Opens scope t) := decidable_of_iff _ beginsWith_iff

theorem opens_append_cons (hc : isBlank c) (scope u : Text) : Opens scope (scope ++ c :: u) := by
  refine ⟨c :: u, rfl, ?_⟩
  rintro d ⟨rfl⟩
  exact .inl hc

/-- A text that begins with the scope does so whatever stands behind a blank. -/
theorem Opens.append_cons (h : Opens scope t) (hc : isBlank c) (u : Text) :
    Opens scope (t ++ c :: u) := by
  obtain ⟨rest, rfl, hhead⟩ := h
  refine ⟨rest ++ c :: u, by simp, ?_⟩
  cases rest with
  | nil =>
    rintro d ⟨rfl⟩
    exact .inl hc
  | cons d rest => exact hhead

/-- Blanks behind a text do not make it begin with a scope that does not end with one. -/
theorem opens_append_of_blanks (hscope : ∃ c ∈ scope.getLast?, ¬ isBlank c)
    (hb : ∀ c ∈ b, isBlank c) : Opens scope (t ++ b) ↔ Opens scope t := by
  obtain ⟨c, hlast, hc⟩ := hscope
  constructor
  · rintro ⟨rest, hrest, hhead⟩
    rcases List.append_eq_append_iff.mp hrest with ⟨z, rfl, hz⟩ | ⟨z, rfl, rfl⟩
    · -- the scope ends in the blanks, so none of them belongs to it
      cases z with
      | nil =>
        rw [List.append_nil]
        exact ⟨[], by simp, by simp⟩
      | cons d z =>
        rw [List.getLast?_append_of_ne_nil _ (List.cons_ne_nil d z)] at hlast
        have hmem : c ∈ b := hz ▸ List.mem_append_left rest (List.mem_of_getLast? hlast)
        exact absurd (hb c hmem) hc
    · refine ⟨z, rfl, ?_⟩
      cases z with
      | nil => simp
      | cons d z => exact hhead
  · intro h
    cases b with
    | nil => rwa [List.append_nil]
    | cons d b => exact h.append_cons (hb d List.mem_cons_self) b

/-! ## Lines -/

theorem mem_afterBreaks_iff : u ∈ fromLineStarts.afterBreaks t ↔ ∃ p, t = p ++ '\n' :: u := by
  induction t with
  | nil => simp [fromLineStarts.afterBreaks]
  | cons d t ih =>
    have hbehind : (∃ p, d :: t = p ++ '\n' :: u) ↔
        (d = '\n' ∧ t = u) ∨ ∃ p, t = p ++ '\n' :: u := by
      constructor
      · rintro ⟨p, hp⟩
        cases p with
        | nil => exact .inl (List.cons.inj hp)
        | cons e p => exact .inr ⟨p, (List.cons.inj hp).2⟩
      · rintro (⟨rfl, rfl⟩ | ⟨p, rfl⟩)
        · exact ⟨[], rfl⟩
        · exact ⟨d :: p, rfl⟩
    rw [fromLineStarts.afterBreaks, hbehind, ← ih]
    by_cases hd : d = '\n'
    · simp [hd, eq_comm]
    · simp [hd]

theorem mem_fromLineStarts_iff :
    u ∈ fromLineStarts t ↔ u = t ∨ ∃ p, t = p ++ '\n' :: u := by
  rw [fromLineStarts, List.mem_cons, mem_afterBreaks_iff]

theorem isScoped_iff : isScoped scope t ↔ ∃ line ∈ fromLineStarts t, Opens scope line := by
  simp only [isScoped, List.any_eq_true, beginsWith_iff]

theorem Opens.isScoped (h : Opens scope t) : isScoped scope t :=
  isScoped_iff.mpr ⟨t, List.mem_cons_self, h⟩

/-- A scoped selector is scoped whatever stands behind a blank. -/
theorem isScoped_append_cons (h : isScoped scope t) (hc : isBlank c) (u : Text) :
    isScoped scope (t ++ c :: u) := by
  obtain ⟨line, hmem, hline⟩ := isScoped_iff.mp h
  refine isScoped_iff.mpr ⟨line ++ c :: u, ?_, hline.append_cons hc u⟩
  rw [mem_fromLineStarts_iff] at hmem ⊢
  rcases hmem with rfl | ⟨p, rfl⟩
  · exact .inl rfl
  · exact .inr ⟨p, by simp⟩

/-- Blanks behind a selector do not make it a scoped one, if the scope does not end with a blank. -/
theorem isScoped_append_of_blanks (hscope : ∃ c ∈ scope.getLast?, ¬ isBlank c)
    (hb : ∀ c ∈ b, isBlank c) (t : Text) : isScoped scope (t ++ b) = isScoped scope t := by
  have hopens : ∀ {u : Text}, Opens scope (u ++ b) ↔ Opens scope u :=
    opens_append_of_blanks hscope hb
  have hnever : ∀ u : Text, u <:+ b → ¬ Opens scope u := by
    intro u hu hopen
    obtain ⟨c, hlast, hc⟩ := hscope
    obtain ⟨rest, rfl, -⟩ := hopen
    exact hc (hb c (hu.subset (List.mem_append_left rest (List.mem_of_getLast? hlast))))
  rw [Bool.eq_iff_iff, isScoped_iff, isScoped_iff]
  constructor
  · rintro ⟨line, hmem, hline⟩
    rw [fromLineStarts, afterBreaks_append, ← List.cons_append, List.mem_append] at hmem
    rcases hmem with hmem | hmem
    · have hmem : line ∈ (fromLineStarts t).map (· ++ b) := hmem
      obtain ⟨u, hu, rfl⟩ := List.mem_map.mp hmem
      exact ⟨u, hu, hopens.mp hline⟩
    · obtain ⟨p, hp⟩ := mem_afterBreaks_iff.mp hmem
      exact absurd hline (hnever line ⟨p ++ ['\n'], by simp [hp]⟩)
  · rintro ⟨line, hmem, hline⟩
    refine ⟨line ++ b, ?_, hopens.mpr hline⟩
    rw [mem_fromLineStarts_iff] at hmem ⊢
    rcases hmem with rfl | ⟨p, rfl⟩
    · exact .inl rfl
    · exact .inr ⟨p, by simp⟩

/-- A selector counts as scoped exactly if it begins with the scope or one of its later lines
does. -/
theorem isScoped_iff_opens (scope t : Text) :
    isScoped scope t ↔
      Opens scope t ∨ ∃ before line, t = before ++ '\n' :: line ∧ Opens scope line := by
  simp only [isScoped_iff, mem_fromLineStarts_iff]
  constructor
  · rintro ⟨line, rfl | ⟨before, hbefore⟩, hline⟩
    · exact .inl hline
    · exact .inr ⟨before, line, hbefore, hline⟩
  · rintro (h | ⟨before, line, hbefore, hline⟩)
    · exact ⟨t, .inl rfl, h⟩
    · exact ⟨line, .inr ⟨before, hbefore⟩, hline⟩

/-- A selector that begins with another element is left as it is, for the sake of its second
line. -/
theorem isScoped_second_line :
    let s : Scope := { content := "x-foo".toList, host := [], mode := .loose }
    let t := "div\nx-foo p".toList
    ¬ Opens s.content t ∧ isScoped s.content t ∧ s.selector t = t := by
  decide +kernel

end ScopedStyles.Selector
