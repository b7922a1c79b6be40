import Mathlib.Data.List.Forall2
import ScopedStyles.Component
import ScopedStyles.Proofs.Text.Trim
import ScopedStyles.Proofs.Text.Words

/-!
# Templates

A text `Fills` a template if it is the template with the identifier of a component in each of its
holes. A hole is a placeholder at the end of an attribute name, between a hyphen and a bracket, so
that no part of one comes from the text around it. Texts that fill templates can be put together
wherever a character that stands in no placeholder is between them (`Fills.append_cons`), and a text
that fills a template is what `instantiate` makes of it (`Fills.instantiate`).
-/

namespace ScopedStyles.Component

open Text

variable {id x y u v t : Text} {c : Char}

/-- `Fills id x y` says that `y` is the template `x` with `id` in its holes. -/
inductive Fills (id : Text) : Text → Text → Prop where
  /-- A text without holes. -/
  | text {t : Text} (ht : ¬ includes .exact placeholder t) : Fills id t t
  /-- A text up to the first hole, and a template behind it. -/
  | hole {t x y : Text} (ht : ¬ includes .exact placeholder t) (h : Fills id x y) :
    Fills id (t ++ '-' :: (placeholder ++ ']' :: x)) (t ++ '-' :: (id ++ ']' :: y))

theorem not_agree_of_not_mem (hc : c ∉ placeholder) :
    ∀ a ∈ placeholder, ¬ Letters.exact.agree a c := by
  intro a ha hagree
  exact hc (eq_of_beq hagree ▸ ha)

theorem not_includes_append_cons (hx : ¬ includes .exact placeholder x)
    (hu : ¬ includes .exact placeholder u) (hc : c ∉ placeholder) :
    ¬ includes .exact placeholder (x ++ c :: u) := by
  rw [includes_append_cons (by decide) (not_agree_of_not_mem hc), Bool.or_eq_true, not_or]
  exact ⟨hx, hu⟩

namespace Fills

theorem nil : Fills id [] [] := .text (by decide)

/-- To instantiate a template is to fill its holes. -/
theorem instantiate (h : Fills id x y) : instantiate id x = y := by
  induction h with
  | text ht => exact replace_of_not_includes ht id
  | @hole t x y ht _ ih =>
    have hclose : after? .exact placeholder (']' :: x) = none := rfl
    rw [Component.instantiate] at ih ⊢
    rw [replace_append_cons (by decide) (by decide), replace_of_not_includes ht,
      replace_of_after? (by decide) (after?_append_self _ _ _), replace_cons_of_none hclose, ih]

/-- Templates on both sides of a character that stands in no placeholder are filled one by one. -/
theorem append_cons (hx : Fills id x y) (hu : Fills id u v) (hc : c ∉ placeholder) :
    Fills id (x ++ c :: u) (y ++ c :: v) := by
  induction hx with
  | text ht =>
    -- what stands before the first hole of the second template grows
    cases hu with
    | text hu => exact .text (not_includes_append_cons ht hu hc)
    | hole hu h =>
      have hhole := hole (not_includes_append_cons ht hu hc) h
      rwa [List.append_assoc, List.append_assoc, List.cons_append, List.cons_append] at hhole
  | hole ht _ ih =>
    simp only [List.append_assoc, List.cons_append]
    exact .hole ht ih

theorem trimEnd (h : Fills id x y) : Fills id (trimEnd x) (trimEnd y) := by
  have hbracket : ∀ p q z : Text,
      Text.trimEnd (p ++ '-' :: (q ++ ']' :: z)) = p ++ '-' :: (q ++ ']' :: Text.trimEnd z) := by
    intro p q z
    have h := trimEnd_append_cons (c := ']') (by decide) (p ++ '-' :: q) z
    rwa [List.append_assoc, List.cons_append, List.append_assoc, List.cons_append] at h
  induction h with
  | text ht => exact .text (not_includes_of_isInfix (trimEnd_isPrefix _).isInfix ht)
  | hole ht _ ih =>
    rw [hbracket, hbracket]
    exact .hole ht ih

theorem trimStart (h : Fills id x y) : Fills id (trimStart x) (trimStart y) := by
  cases h with
  | text ht => exact .text (not_includes_of_isInfix (trimStart_suffix _).isInfix ht)
  | hole ht h =>
    rw [trimStart_append_cons (by decide), trimStart_append_cons (by decide)]
    exact .hole (not_includes_of_isInfix (trimStart_suffix _).isInfix ht) h

theorem trim (h : Fills id x y) : Fills id (trim x) (trim y) := h.trimStart.trimEnd

end Fills

/-! ## What can stand before any template -/

/-- The text `y` fills the template `x`, whatever filled template stands behind them. -/
def Front (id x y : Text) : Prop := ∀ u v, Fills id u v → Fills id (x ++ u) (y ++ v)

namespace Front

theorem fills (h : Front id x y) : Fills id x y := by
  have h := h [] [] .nil
  rwa [List.append_nil, List.append_nil] at h

theorem append (hx : Front id x y) (hu : Front id u v) : Front id (x ++ u) (y ++ v) := by
  intro p q h
  rw [List.append_assoc, List.append_assoc]
  exact hx _ _ (hu p q h)

/-- What begins no placeholder is itself before any template. -/
theorem of_not_mem (ht : '%' ∉ t) : Front id t t := by
  have hdisagree : ∀ c ∈ t, ¬ Letters.exact.agree '%' c := by
    intro c hc hagree
    exact ht (eq_of_beq hagree ▸ hc)
  have hlacks : ∀ {u}, ¬ includes .exact placeholder u →
      ¬ includes .exact placeholder (t ++ u) := by
    intro u hu
    rwa [placeholder, show "%COMP%".toList = '%' :: "COMP%".toList from rfl,
      includes_append_of_disagree hdisagree]
  intro u v h
  cases h with
  | text hu => exact .text (hlacks hu)
  | hole hu h =>
    rw [← List.append_assoc, ← List.append_assoc]
    exact .hole (hlacks hu) h

/-- An attribute whose name ends with the placeholder. -/
theorem of_attribute (ht : '%' ∉ t) :
    Front id (t ++ '-' :: (placeholder ++ [']'])) (t ++ '-' :: (id ++ [']'])) := by
  intro u v h
  simp only [List.append_assoc, List.cons_append, List.nil_append]
  exact .hole (not_includes_of_not_mem (by decide) ht) h

theorem intercalate (hx : Front id x y) {xs ys : List Text} (h : List.Forall₂ (Front id) xs ys) :
    Front id (x.intercalate xs) (y.intercalate ys) := by
  induction h with
  | nil => exact of_not_mem List.not_mem_nil
  | cons hpiece hrest ih =>
    cases hrest with
    | nil => simpa [List.intercalate] using hpiece
    | cons hpiece' hrest =>
      rw [List.intercalate_cons_cons, List.intercalate_cons_cons]
      exact (hpiece.append hx).append ih

/-- Pieces that begin no placeholder, with a template between them. -/
theorem intercalate_same (hx : Front id x y) {pieces : List Text} (h : ∀ p ∈ pieces, '%' ∉ p) :
    Front id (x.intercalate pieces) (y.intercalate pieces) :=
  hx.intercalate (List.forall₂_same.mpr fun p hp => of_not_mem (h p hp))

end Front

/-- Characters that stand in no placeholder can be put behind any template. -/
theorem Fills.append_text (h : Fills id x y) (ht : ∀ c ∈ t, c ∉ placeholder) :
    Fills id (x ++ t) (y ++ t) := by
  cases t with
  | nil => rwa [List.append_nil, List.append_nil]
  | cons c t =>
    rw [List.forall_mem_cons] at ht
    have hmem : '%' ∉ t := fun hmem => ht.2 _ hmem (by decide)
    exact h.append_cons (Front.of_not_mem hmem).fills ht.1

end ScopedStyles.Component
