import ScopedStyles.Proofs.Text.Occurrence
import ScopedStyles.Proofs.Text.Pieces
import ScopedStyles.Proofs.Text.Trim
import ScopedStyles.Selector.Scope

/-!
# Pieces of selectors

A selector is cut at its commas, at its deep combinators and at its combinators before anything is
done to it, and every piece stands in the selector as it was. What is written in the end consists of
characters of the selector and of the scope, and of a few more (`Scope.mem_selector`).
-/

namespace ScopedStyles

open Text

namespace Selector

variable {k t : Text} {c : Char}

/-! ## Chains -/

theorem dropWhile_of_run (hk : ∀ d ∈ k, ¬ isCombinator d) :
    k.dropWhile (!isCombinator ·) = [] :=
  List.dropWhile_eq_nil_iff.mpr fun d hd => by simp [hk d hd]

/-- A compound selector ends at the first combinator. -/
theorem span_append_cons (hk : ∀ d ∈ k, ¬ isCombinator d) (hc : isCombinator c) (t : Text) :
    (k ++ c :: t).takeWhile (!isCombinator ·) = k ∧
      (k ++ c :: t).dropWhile (!isCombinator ·) = c :: t := by
  have hrun : ∀ d ∈ k, (!isCombinator d) = true := fun d hd => by simp [hk d hd]
  rw [List.takeWhile_append_of_pos hrun, List.dropWhile_append_of_pos hrun]
  simp [hc]

theorem chain_of_run (hk : ∀ d ∈ k, ¬ isCombinator d) : chain k = ⟨[], k⟩ := by
  rw [chain]
  split
  · rfl
  · rename_i d rest hd
    rw [dropWhile_of_run hk] at hd
    cases hd

theorem chain_nil : chain [] = ⟨[], []⟩ := chain_of_run fun _ hd => absurd hd List.not_mem_nil

theorem chain_append_cons (hk : ∀ d ∈ k, ¬ isCombinator d) (hc : isCombinator c) (t : Text) :
    chain (k ++ c :: t) =
      ⟨(k, c) :: (chain (trimStart t)).links, (chain (trimStart t)).last⟩ := by
  obtain ⟨htake, hdrop⟩ := span_append_cons hk hc t
  rw [chain]
  split
  · rename_i hnil
    rw [hdrop] at hnil
    cases hnil
  · rename_i d rest hd
    obtain ⟨rfl, rfl⟩ := List.cons.inj (hd.symm.trans hdrop)
    simp only [htake]

/-- What holds of a compound selector, and of a chain if it holds of the chain behind its first
combinator, holds of every selector. -/
theorem chain_induction {P : Text → Prop} (run : ∀ k, (∀ d ∈ k, ¬ isCombinator d) → P k)
    (link : ∀ k c t, (∀ d ∈ k, ¬ isCombinator d) → isCombinator c → P (trimStart t) →
      P (k ++ c :: t)) (t : Text) : P t := by
  fun_induction chain t with
  | case1 t hdrop =>
    refine run t fun d hd => ?_
    have := List.dropWhile_eq_nil_iff.mp hdrop d hd
    simpa using this
  | case2 t c rest hdrop tail ih =>
    have hhead := List.head?_dropWhile_not (!isCombinator ·) t
    rw [hdrop] at hhead
    have hc : isCombinator c := by simpa using hhead
    -- the text in front of the first combinator is a compound selector
    rw [← List.takeWhile_append_dropWhile (p := (!isCombinator ·)) (l := t), hdrop]
    refine link _ c rest (fun d hd => ?_) hc ih
    have := List.mem_takeWhile_imp hd
    simpa using this

/-- The compound selectors of a chain stand in it. -/
theorem infix_of_mem_links (t : Text) :
    (∀ link ∈ (chain t).links, link.1 <:+: t ∧ isCombinator link.2) ∧ (chain t).last <:+ t := by
  induction t using chain_induction with
  | run k hk =>
    rw [chain_of_run hk]
    exact ⟨fun link h => absurd h List.not_mem_nil, List.suffix_refl k⟩
  | link k c t hk hc ih =>
    have hsuffix := trimStart_suffix_append_cons k c t
    rw [chain_append_cons hk hc]
    refine ⟨fun link h => ?_, ih.2.trans hsuffix⟩
    rcases List.mem_cons.mp h with rfl | h
    · exact ⟨(List.prefix_append k _).isInfix, hc⟩
    · exact ⟨(ih.1 link h).1.trans hsuffix.isInfix, (ih.1 link h).2⟩

theorem leavesSuffix_deepReader : deepReader.LeavesSuffix := by
  intro t a rest h
  simp only [deepReader, Option.map_eq_some_iff, Prod.mk.injEq] at h
  obtain ⟨r, hr, -, rfl⟩ := h
  unfold afterDeep? at hr
  split at hr
  · rename_i hdeep
    obtain rfl := Option.some.inj hr
    exact suffix_of_after? hdeep
  · exact suffix_of_after? hr

/-! ## Attributes -/

theorem eq_of_isValue? {value rest : Text} (h : isValue? t = some (value, rest)) :
    t = "[is=".toList ++ (value ++ ']' :: rest) := by
  simp only [isValue?, Option.bind_eq_some_iff] at h
  obtain ⟨inner, hinner, hcut⟩ := h
  rw [after?_exact.mp hinner, cut_exact hcut]
  simp

theorem mem_of_mem_unwrapIs (h : c ∈ unwrapIs t) : c ∈ t := by
  have hsuffix : isReader.LeavesSuffix := by
    intro u value rest hread
    rw [eq_of_isValue? hread]
    exact ⟨"[is=".toList ++ value ++ [']'], by simp⟩
  have hvalue : ∀ u value rest, isReader.read u = some (value, rest) →
      ∀ d ∈ id value, d ∈ u ∨ False := by
    intro u value rest hread d hd
    rw [eq_of_isValue? hread]
    exact .inl (List.mem_append_right _ (List.mem_append_left _ hd))
  exact (Reader.mem_substitute hsuffix hvalue h).resolve_right not_false

end Selector

namespace Scope

open Selector

variable {s : Scope} {t : Text} {c : Char}

/-! ## Blanks around alternatives -/

theorem alternative_congr {x y : Text} (h : trim x = trim y) :
    s.alternative x = s.alternative y := by
  rw [alternative, alternative, h]

/-- The blanks around a selector list do not matter. -/
theorem selector_trim (s : Scope) (t : Text) : s.selector (trim t) = s.selector t := by
  obtain ⟨b, b', hb, hb', ht⟩ := exists_blanks_of_trim t
  have hcomma : ∀ {u : Text}, (∀ c ∈ u, isBlank c) → ',' ∉ u :=
    fun hu hc => absurd (hu ',' hc) (by decide)
  have hright : s.selector (trim t ++ b') = s.selector (trim t) := by
    obtain ⟨pieces, piece, hsplit, hsplit'⟩ := split_append_right (hcomma hb') (trim t)
    have hpiece := @alternative_congr s _ _ (trim_append_of_blanks hb' piece)
    rw [selector, selector, hsplit, hsplit']
    simp [hpiece]
  obtain ⟨piece, pieces, hsplit, hsplit'⟩ := split_append_left (hcomma hb) (trim t ++ b')
  have hpiece := @alternative_congr s _ _ (trim_append_left_of_blanks hb piece)
  conv => rhs; rw [ht]
  rw [← hright, selector, selector, hsplit, hsplit']
  simp [hpiece]

/-! ## The characters of a scoped selector -/

/-- The character comes with the scope, or is one of those that are written around its parts. -/
def Brings (s : Scope) (c : Char) : Prop :=
  c ∈ s.content ∨ c ∈ s.host ∨ c ∈ " ,[]>+~".toList

theorem brings_of_isCombinator (hc : isCombinator c) : s.Brings c := by
  simp only [isCombinator, Bool.or_eq_true, beq_iff_eq] at hc
  rcases hc with ((rfl | rfl) | rfl) | rfl <;> exact .inr (.inr (by decide))

theorem brings_of_mem_contentAttribute (h : c ∈ s.contentAttribute) : s.Brings c := by
  simp only [contentAttribute, List.mem_append, List.mem_cons, List.not_mem_nil, or_false] at h
  rcases h with (rfl | h) | rfl
  · exact .inr (.inr (by decide))
  · exact .inl (mem_of_mem_unwrapIs h)
  · exact .inr (.inr (by decide))

theorem brings_of_mem_hostText (h : c ∈ s.hostText) : s.Brings c := by
  unfold hostText at h
  split at h
  · simp only [List.mem_append, List.mem_cons, List.not_mem_nil, or_false] at h
    rcases h with (rfl | h) | rfl
    · exact .inr (.inr (by decide))
    · exact .inr (.inl h)
    · exact .inr (.inr (by decide))
  · exact .inl h

theorem mem_writeHost (h : c ∈ s.writeHost t) : c ∈ t ∨ s.Brings c := by
  rcases mem_replace h with h | h
  · exact (mem_replaceFirst h).imp_right brings_of_mem_hostText
  · rcases List.mem_append.mp h with h | h
    · exact .inr (brings_of_mem_hostText h)
    · rw [List.mem_singleton.mp h]
      exact .inr (.inr (.inr (by decide)))

theorem mem_compound (h : c ∈ s.compound t) : c ∈ t ∨ s.Brings c := by
  have hreplace : ∀ d ∈ replace .anyCase Host.marker [] t, d ∈ t := fun d hd =>
    (mem_replace hd).resolve_right List.not_mem_nil
  unfold compound at h
  split at h
  · exact absurd h List.not_mem_nil
  · split at h
    · exact mem_writeHost h
    · split at h
      · exact .inl ((trim_isInfix t).subset h)
      · simp only [insertAttribute, List.mem_append] at h
        rcases h with (h | h) | h
        · exact .inl (hreplace c ((List.takeWhile_prefix _).subset h))
        · exact .inr (brings_of_mem_contentAttribute h)
        · exact .inl (hreplace c ((List.dropWhile_suffix _).subset h))

theorem mem_links {chained : List (Text × Char)} {reached : Bool}
    (hlinks : ∀ link ∈ chained, link.1 <:+: t ∧ isCombinator link.2)
    (h : c ∈ s.links reached chained) : c ∈ t ∨ s.Brings c := by
  induction chained generalizing reached with
  | nil => exact absurd h List.not_mem_nil
  | cons link chained ih =>
    obtain ⟨k, d⟩ := link
    rw [List.forall_mem_cons] at hlinks
    obtain ⟨⟨hk, hd⟩, hrest⟩ := hlinks
    have htrim : ∀ e ∈ trim k, e ∈ t := fun e he => hk.subset ((trim_isInfix k).subset he)
    simp only [links, List.mem_append, List.mem_cons, List.not_mem_nil, or_false] at h
    rcases h with (h | rfl | rfl | rfl) | h
    · split at h
      · exact (mem_compound h).imp_left (htrim c)
      · exact .inl (htrim c h)
    · exact .inr (.inr (.inr (by decide)))
    · exact .inr (brings_of_isCombinator hd)
    · exact .inr (.inr (.inr (by decide)))
    · exact ih hrest h

theorem mem_shallow (h : c ∈ s.shallow t) : c ∈ t ∨ s.Brings c := by
  unfold shallow at h
  split at h
  · exact .inl h
  · split at h
    · rcases List.mem_append.mp h with h | h
      · exact mem_links (infix_of_mem_links t).1 h
      · exact (mem_compound h).imp_left fun hc => (infix_of_mem_links t).2.subset hc
    · unfold loosely at h
      split at h
      · exact mem_writeHost h
      · simp only [List.mem_append, List.mem_singleton] at h
        rcases h with (h | rfl) | h
        · exact .inr (.inl h)
        · exact .inr (.inr (.inr (by decide)))
        · exact .inl h

theorem mem_alternative (h : c ∈ s.alternative t) : c ∈ t ∨ s.Brings c := by
  obtain ⟨hown, hforeign⟩ := Reader.between_isInfix leavesSuffix_deepReader (trim t)
  rcases mem_intercalate h with hc | ⟨piece, hpiece, hc⟩
  · rw [List.mem_singleton.mp hc]
    exact .inr (.inr (.inr (by decide)))
  · rcases List.mem_cons.mp hpiece with rfl | hpiece
    · exact (mem_shallow hc).imp_left fun hc => (trim_isInfix t).subset (hown.subset hc)
    · exact .inl ((trim_isInfix t).subset ((hforeign piece hpiece).subset hc))

/-- Every character of a scoped selector was in the selector, or comes with the scope. -/
theorem mem_selector (h : c ∈ s.selector t) : c ∈ t ∨ s.Brings c := by
  rcases mem_intercalate h with hc | ⟨piece, hpiece, hc⟩
  · have hseparator : ∀ d ∈ ", ".toList, d ∈ " ,[]>+~".toList := by decide
    exact .inr (.inr (.inr (hseparator c hc)))
  · obtain ⟨p, hp, rfl⟩ := List.mem_map.mp hpiece
    exact (mem_alternative hc).imp_left fun hc => (infix_of_mem_split hp).subset hc

end Scope

end ScopedStyles
