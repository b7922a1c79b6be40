import ScopedStyles.Proofs.Text.Occurrence
import ScopedStyles.Text.Blank

/-!
# Texts without certain words

`Text.Lacks` says of a list of words that none of them occurs in a text. For a text that is put
together from pieces there are two ways to see it: a character that stands in none of the words
divides the text (`lacks_append_cons`), and where the pieces meet without one, the words clash with
what stands there (`lacks_append_of_clashes`).
-/

namespace ScopedStyles

namespace Text

variable {m : Letters} {v w x u : Text} {c : Char}

/-! ## Literals made of two -/

/-- A literal made of two stands at the head of a text if they follow each other there. -/
theorem after?_append_literal (m : Letters) (v w t : Text) :
    after? m (v ++ w) t = (after? m v t).bind (after? m w) := by
  induction v generalizing t with
  | nil => rfl
  | cons a v ih =>
    cases t with
    | nil => rfl
    | cons c t =>
      simp only [List.cons_append, after?]
      split
      · exact ih t
      · rfl

/-- Where a literal occurs, its beginning does. -/
theorem includes_of_includes_append (h : includes m (v ++ w) x) : includes m v x := by
  obtain ⟨p, u, rfl, hu⟩ := includes_iff.mp h
  refine includes_iff.mpr ⟨p, u, rfl, ?_⟩
  rw [after?_append_literal] at hu
  cases hv : after? m v u with
  | some rest => rfl
  | none =>
    rw [hv] at hu
    cases hu

/-- Where a literal occurs, it does without its first character. -/
theorem includes_of_includes_cons {a : Char} (h : includes m (a :: w) x) : includes m w x := by
  obtain ⟨p, u, rfl, hu⟩ := includes_iff.mp h
  obtain ⟨rest, hrest⟩ := Option.isSome_iff_exists.mp hu
  obtain ⟨d, y, rfl, -, hy⟩ := exists_of_after?_cons hrest
  refine includes_iff.mpr ⟨p ++ [d], y, by simp, ?_⟩
  rw [hy]
  rfl

theorem after?_append_self (m : Letters) (w x : Text) : after? m w (w ++ x) = some x := by
  have hagree : ∀ a, m.agree a a := by
    intro a
    cases m <;> simp [Letters.agree]
  induction w with
  | nil => rfl
  | cons a w ih => rw [List.cons_append, after?, if_pos (hagree a), ih]

/-- What occurs exactly occurs in any case. -/
theorem includes_anyCase (h : includes .exact w x) : includes .anyCase w x := by
  obtain ⟨p, u, rfl, hu⟩ := includes_iff.mp h
  refine includes_iff.mpr ⟨p, u, rfl, ?_⟩
  obtain ⟨rest, hrest⟩ := Option.isSome_iff_exists.mp hu
  obtain rfl := after?_exact.mp hrest
  rw [after?_append_self]
  rfl

/-- A literal whose characters do not all occur does not occur. -/
theorem not_includes_of_not_mem (hc : c ∈ w) (hx : c ∉ x) : ¬ includes .exact w x := by
  intro h
  obtain ⟨p, u, rfl, hu⟩ := includes_iff.mp h
  obtain ⟨rest, hrest⟩ := Option.isSome_iff_exists.mp hu
  obtain rfl := after?_exact.mp hrest
  exact hx (List.mem_append_right p (List.mem_append_left rest hc))

/-! ## Pieces that clash with a literal -/

/-- The literal and the text differ at a place which both of them have. -/
def clashes (m : Letters) : (literal t : Text) → Bool
  | a :: literal, c :: t => !m.agree a c || clashes m literal t
  | _, _ => false

theorem after?_append_of_clashes (h : clashes m w x) (u : Text) : after? m w (x ++ u) = none := by
  induction w generalizing x with
  | nil => simp [clashes] at h
  | cons a w ih =>
    cases x with
    | nil => simp [clashes] at h
    | cons c x =>
      simp only [List.cons_append, after?]
      split
      · rename_i hagree
        refine ih ?_
        simpa [clashes, hagree] using h
      · rfl

/-- No occurrence of `w` begins in `x`, whatever follows. -/
def Shuts (m : Letters) (w x : Text) : Prop := ∀ t, t <:+ x → t ≠ [] → clashes m w t

/-- No occurrence of `w` reaches into a text that begins with `x`. -/
def Repels (m : Letters) (w x : Text) : Prop := ∀ v, v <:+ w → v ≠ w → v ≠ [] → clashes m v x

instance (m : Letters) (w x : Text) : Decidable (Shuts m w x) :=
  decidable_of_iff (∀ t ∈ x.tails, t ≠ [] → clashes m w t) (by simp [Shuts])

instance (m : Letters) (w x : Text) : Decidable (Repels m w x) :=
  decidable_of_iff (∀ v ∈ w.tails, v ≠ w → v ≠ [] → clashes m v x) (by simp [Repels])

theorem Repels.bars (h : Repels m w x) (u : Text) : Bars m w (x ++ u) :=
  fun v hv hne hnil => after?_append_of_clashes (h v hv hne hnil) u

theorem includes_append_of_shuts (h : Shuts m w x) (u : Text) :
    includes m w (x ++ u) = includes m w u := by
  induction x with
  | nil => rfl
  | cons c x ih =>
    have hnone : after? m w (c :: (x ++ u)) = none :=
      after?_append_of_clashes (h _ (List.suffix_refl _) (List.cons_ne_nil c x)) u
    rw [List.cons_append, includes_cons, hnone,
      ih fun t ht hne => h t (ht.trans (List.suffix_cons c x)) hne]
    rfl

end Text

namespace Reader

open Text

variable {α : Type} {R : Reader α} {m : Letters} {w x u : Text}

theorem AwaitsLiteral.passes_of_shuts (hR : R.AwaitsLiteral m w) (hx : Shuts m w x) (u : Text) :
    R.Passes x u := fun t ht hne => hR _ (after?_append_of_clashes (hx t ht hne) u)

end Reader

namespace Text

variable {words : List (Letters × Text)} {x u : Text} {c : Char}

/-- What stands on both sides of a piece that clashes with the literal is replaced by itself. -/
theorem replace_append_of_clashes {m : Letters} {w a : Text} (hshuts : Shuts m w a)
    (hrepels : Repels m w a) (new x u : Text) :
    replace m w new (x ++ (a ++ u)) = replace m w new x ++ (a ++ replace m w new u) := by
  rw [replace_append (hrepels.bars u)]
  exact congrArg _
    (((Reader.awaitsLiteral_literal m w).passes_of_shuts hshuts u).substitute_append _)

/-! ## Texts without certain words -/

/-- None of the words occurs in the text. -/
def Lacks (words : List (Letters × Text)) (t : Text) : Prop := ∀ w ∈ words, ¬ includes w.1 w.2 t

instance (words : List (Letters × Text)) (t : Text) : Decidable (Lacks words t) :=
  inferInstanceAs (Decidable (∀ _ ∈ _, _))

/-- The character stands in none of the words. -/
def Divides (words : List (Letters × Text)) (c : Char) : Prop :=
  ∀ w ∈ words, w.2 ≠ [] ∧ ∀ a ∈ w.2, ¬ w.1.agree a c

instance (words : List (Letters × Text)) (c : Char) : Decidable (Divides words c) :=
  inferInstanceAs (Decidable (∀ _ ∈ _, _))

theorem Lacks.of_isInfix (h : Lacks words x) (hu : u <:+: x) : Lacks words u :=
  fun w hw => not_includes_of_isInfix hu (h w hw)

theorem Lacks.of_subset {few : List (Letters × Text)} (h : Lacks words x) (hfew : few ⊆ words) :
    Lacks few x := fun w hw => h w (hfew hw)

theorem lacks_singleton {m : Letters} {w : Text} : Lacks [(m, w)] x ↔ ¬ includes m w x := by
  simp [Lacks]

/-- On both sides of a character that stands in no word the text is read by itself. -/
theorem lacks_append_cons (hc : Divides words c) (x u : Text) :
    Lacks words (x ++ c :: u) ↔ Lacks words x ∧ Lacks words u := by
  have hword : ∀ w ∈ words,
      (¬ includes w.1 w.2 (x ++ c :: u) ↔ ¬ includes w.1 w.2 x ∧ ¬ includes w.1 w.2 u) := by
    intro w hw
    rw [includes_append_cons (hc w hw).1 (hc w hw).2, Bool.or_eq_true, not_or]
  constructor
  · intro h
    exact ⟨fun w hw => ((hword w hw).mp (h w hw)).1, fun w hw => ((hword w hw).mp (h w hw)).2⟩
  · rintro ⟨hx, hu⟩ w hw
    exact (hword w hw).mpr ⟨hx w hw, hu w hw⟩

theorem Divides.lacks_nil (hc : Divides words c) : Lacks words [] := by
  intro w hw
  cases hne : w.2 with
  | nil => exact absurd hne (hc w hw).1
  | cons a t => simp [includes, cut]

theorem lacks_cons (hc : Divides words c) (u : Text) : Lacks words (c :: u) ↔ Lacks words u :=
  (lacks_append_cons hc [] u).trans (and_iff_right hc.lacks_nil)

/-- A text of dividing characters lacks every word. -/
theorem lacks_append_of_divides (hx : ∀ c ∈ x, Divides words c) (u : Text) :
    Lacks words (x ++ u) ↔ Lacks words u := by
  induction x with
  | nil => rfl
  | cons c x ih =>
    rw [List.forall_mem_cons] at hx
    rw [List.cons_append, lacks_cons hx.1, ih hx.2]

theorem lacks_append_right_of_divides (hu : ∀ c ∈ u, Divides words c) (hx : Lacks words x) :
    Lacks words (x ++ u) := by
  cases u with
  | nil => rwa [List.append_nil]
  | cons c u =>
    rw [List.forall_mem_cons] at hu
    have hrest := (lacks_append_of_divides hu.2 []).mpr hu.1.lacks_nil
    rw [List.append_nil] at hrest
    exact (lacks_append_cons hu.1 x u).mpr ⟨hx, hrest⟩

/-- A piece that clashes with the words on both sides keeps what stands before it from what stands
behind it. -/
theorem lacks_append_of_clashes (hx : ∀ w ∈ words, Shuts w.1 w.2 x ∧ Repels w.1 w.2 x)
    (p u : Text) : Lacks words (p ++ (x ++ u)) ↔ Lacks words p ∧ Lacks words u := by
  have hword : ∀ w ∈ words,
      (¬ includes w.1 w.2 (p ++ (x ++ u)) ↔ ¬ includes w.1 w.2 p ∧ ¬ includes w.1 w.2 u) := by
    intro w hw
    rw [includes_append_of_bars ((hx w hw).2.bars u), includes_append_of_shuts (hx w hw).1,
      Bool.or_eq_true, not_or]
  constructor
  · intro h
    exact ⟨fun w hw => ((hword w hw).mp (h w hw)).1, fun w hw => ((hword w hw).mp (h w hw)).2⟩
  · rintro ⟨hp, hu⟩ w hw
    exact (hword w hw).mpr ⟨hp w hw, hu w hw⟩

/-- Between a text in which no word begins and one that no word reaches into, another text is read
by itself. -/
theorem lacks_append_append {p : Text} (h : ∀ w ∈ words, Shuts w.1 w.2 p ∧ Bars w.1 w.2 u)
    (hx : Lacks words x) (hu : Lacks words u) : Lacks words (p ++ (x ++ u)) := by
  intro w hw
  rw [includes_append_of_shuts (h w hw).1, includes_append_of_bars (h w hw).2, Bool.or_eq_true,
    not_or]
  exact ⟨hx w hw, hu w hw⟩

/-- Pieces joined by dividing characters are read one by one. -/
theorem lacks_intercalate_cons {separator : Text} (hc : Divides words c)
    (hseparator : ∀ d ∈ separator, Divides words d) (pieces : List Text) :
    Lacks words ((c :: separator).intercalate pieces) ↔ ∀ p ∈ pieces, Lacks words p := by
  induction pieces with
  | nil => simpa [List.intercalate] using hc.lacks_nil
  | cons p pieces ih =>
    cases pieces with
    | nil => simp [List.intercalate]
    | cons q pieces =>
      rw [List.intercalate_cons_cons, List.append_assoc, List.cons_append, lacks_append_cons hc,
        lacks_append_of_divides hseparator, ih]
      exact List.forall_mem_cons.symm

theorem lacks_intercalate (hc : Divides words c) (pieces : List Text) :
    Lacks words ([c].intercalate pieces) ↔ ∀ p ∈ pieces, Lacks words p :=
  lacks_intercalate_cons hc (by simp) pieces

/-- To replace something by a dividing character brings no word into a text. -/
theorem Lacks.replace (h : Lacks words x) (hc : Divides words c) (m : Letters) (w : Text) :
    Lacks words (replace m w [c] x) := by
  obtain ⟨hfirst, hothers⟩ := Reader.between_isInfix (Reader.leavesSuffix_literal m w) x
  rw [Text.replace, Reader.substitute_const, lacks_intercalate hc]
  intro p hp
  rcases List.mem_cons.mp hp with rfl | hp
  · exact h.of_isInfix hfirst.isInfix
  · exact h.of_isInfix (hothers p hp)

/-- No blank is a letter. -/
theorem foldCase_of_isBlank (hc : isBlank c) : foldCase c = c := by
  have hs : c ≠ '\u017f' := by rintro rfl; exact absurd hc (by decide)
  have hk : c ≠ '\u212a' := by rintro rfl; exact absurd hc (by decide)
  have hletter : ¬ (c.val ≥ 'A'.val ∧ c.val ≤ 'Z'.val) := by
    rintro ⟨hA, hZ⟩
    have hA : 65 ≤ c.toNat := UInt32.le_iff_toNat_le.mp hA
    have hZ : c.toNat ≤ 90 := UInt32.le_iff_toNat_le.mp hZ
    simp [isBlank, blankRanges] at hc
    omega
  have hlower : c.toLower = c := dif_neg hletter
  rw [foldCase, if_neg hs, if_neg hk, hlower]

/-- A blank divides words that have none. -/
theorem divides_of_isBlank
    (hwords : ∀ w ∈ words, w.2 ≠ [] ∧ ∀ a ∈ w.2, ¬ isBlank a ∧ ¬ isBlank (foldCase a))
    (hc : isBlank c) : Divides words c := by
  intro w hw
  refine ⟨(hwords w hw).1, fun a ha hagree => ?_⟩
  obtain ⟨hexact, hfold⟩ := (hwords w hw).2 a ha
  obtain ⟨m, w⟩ := w
  cases m with
  | exact => exact hexact (eq_of_beq hagree ▸ hc)
  | anyCase =>
    have heq : foldCase a = foldCase c := eq_of_beq hagree
    rw [heq, foldCase_of_isBlank hc] at hfold
    exact hfold hc

end Text

end ScopedStyles
