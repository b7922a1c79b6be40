import ScopedStyles.Text.Basic

/-!
# Sized texts

A sized text knows its length. Two of them that differ in length are told apart without reading
them, which makes it cheap to look for one among many. The main statement is `ofText_mem_iff`: to
look for a sized text is to look for the text.
-/

namespace ScopedStyles

/-- A text with its length. -/
structure Sized where
  /-- The text. -/
  text : Text
  /-- Its length. -/
  length : Nat
  /-- The length is that of the text. -/
  length_eq : length = text.length
  deriving Repr

namespace Sized

/-- A text, sized. -/
def ofText (t : Text) : Sized := ⟨t, t.length, rfl⟩

theorem eq_iff_text {s t : Sized} : s = t ↔ s.text = t.text := by
  obtain ⟨s, m, hm⟩ := s
  obtain ⟨t, n, hn⟩ := t
  simp only [mk.injEq, and_iff_left_iff_imp]
  rintro rfl
  rw [hm, hn]

/-- Lengths are compared first. -/
instance : DecidableEq Sized := fun s t =>
  if h : s.length = t.length then decidable_of_iff (s.text = t.text) eq_iff_text.symm
  else isFalse fun hst => h (congrArg length hst)

/-- A text is among sized texts if it is one of their texts. -/
theorem ofText_mem_iff {t : Text} {texts : List Sized} :
    ofText t ∈ texts ↔ t ∈ texts.map text := by
  rw [List.mem_map]
  constructor
  · intro h
    exact ⟨ofText t, h, rfl⟩
  · rintro ⟨s, hs, rfl⟩
    rwa [show ofText s.text = s from eq_iff_text.mpr rfl]

end Sized

end ScopedStyles
