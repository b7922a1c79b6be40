import Mathlib.Data.List.Infix
import ScopedStyles.Text.Basic

/-!
# Pieces

A split cuts a text at a separator, and joining the pieces by the separator puts it together again.
Here the way back: what was joined comes apart into the same pieces (`split_intercalate`), as long
as none of them has the separator.
-/

namespace ScopedStyles.Text

variable {c : Char}

/-- A beginning of a text without a certain character ends before that character. -/
theorem isPrefix_of_append_cons {k x y : Text} (h : k <+: x ++ c :: y) (hc : c ∉ k) : k <+: x := by
  rcases List.prefix_or_prefix_of_prefix h (List.prefix_append x (c :: y)) with hk | ⟨z, rfl⟩
  · exact hk
  · have hz := (List.prefix_append_right_inj x).mp h
    cases z with
    | nil => rw [List.append_nil]
    | cons d z =>
      obtain ⟨rfl, -⟩ := List.cons_prefix_cons.mp hz
      exact absurd (List.mem_append_right x List.mem_cons_self) hc

/-! ## Joined pieces -/

theorem mem_intercalate {separator : Text} {pieces : List Text}
    (h : c ∈ separator.intercalate pieces) : c ∈ separator ∨ ∃ p ∈ pieces, c ∈ p := by
  induction pieces with
  | nil => simp [List.intercalate] at h
  | cons p pieces ih =>
    cases pieces with
    | nil => exact .inr ⟨p, List.mem_cons_self, by simpa [List.intercalate] using h⟩
    | cons q pieces =>
      simp only [List.intercalate_cons_cons, List.mem_append] at h
      rcases h with (h | h) | h
      · exact .inr ⟨p, List.mem_cons_self, h⟩
      · exact .inl h
      · refine (ih h).imp_right ?_
        rintro ⟨r, hr, hc⟩
        exact ⟨r, List.mem_cons_of_mem p hr, hc⟩

theorem infix_intercalate (separator : Text) {pieces : List Text} {p : Text} (hp : p ∈ pieces) :
    p <:+: separator.intercalate pieces := by
  obtain ⟨before, behind, rfl⟩ := List.append_of_mem hp
  induction before with
  | nil =>
    cases behind with
    | nil => simp
    | cons q behind =>
      rw [List.nil_append, List.intercalate_cons_cons, List.append_assoc]
      exact (List.prefix_append p _).isInfix
  | cons q before ih =>
    have hsuffix : separator.intercalate (before ++ p :: behind) <:+
        separator.intercalate (q :: (before ++ p :: behind)) := by
      cases before with
      | nil => exact ⟨q ++ separator, by simp [List.intercalate_cons_cons]⟩
      | cons r before => exact ⟨q ++ separator, by simp [List.intercalate_cons_cons]⟩
    exact (ih (by simp)).trans hsuffix.isInfix

/-- What stands before joined pieces belongs to the first one. -/
theorem append_intercalate_cons (separator p q : Text) (pieces : List Text) :
    p ++ separator.intercalate (q :: pieces) = separator.intercalate ((p ++ q) :: pieces) := by
  cases pieces <;> simp [List.intercalate]

theorem intercalate_append {p q : List Text} (hp : p ≠ []) (hq : q ≠ []) (separator : Text) :
    separator.intercalate (p ++ q) =
      separator.intercalate p ++ (separator ++ separator.intercalate q) := by
  induction p with
  | nil => exact absurd rfl hp
  | cons a p ih =>
    cases p with
    | nil =>
      obtain ⟨b, q, rfl⟩ := List.exists_cons_of_ne_nil hq
      simp [List.intercalate_cons_cons]
    | cons b p =>
      have ih := ih (List.cons_ne_nil b p)
      rw [List.cons_append] at ih
      simp [List.intercalate_cons_cons, ih]

/-- Joined pieces have no more characters than pieces of the longest length would. -/
theorem length_intercalate_le {c : Char} {pieces : List Text} {n : Nat}
    (h : ∀ p ∈ pieces, p.length ≤ n) :
    ([c].intercalate pieces).length ≤ pieces.length * (n + 1) := by
  induction pieces with
  | nil => exact Nat.zero_le _
  | cons p pieces ih =>
    rw [List.forall_mem_cons] at h
    cases pieces with
    | nil =>
      rw [List.intercalate_singleton, List.length_singleton]
      omega
    | cons q pieces =>
      have ih := ih h.2
      rw [List.intercalate_cons_cons, List.length_append, List.length_append, List.length_singleton,
        List.length_cons, Nat.succ_mul]
      omega

/-- Joined pieces begin with the first one. -/
theorem isPrefix_intercalate_cons (separator p : Text) (pieces : List Text) :
    p <+: separator.intercalate (p :: pieces) := by
  cases pieces with
  | nil => rw [List.intercalate_singleton]
  | cons q pieces =>
    rw [List.intercalate_cons_cons, List.append_assoc]
    exact List.prefix_append p _

/-- Joined pieces end with the last one. -/
theorem exists_intercalate_append (separator : Text) (pieces : List Text) (p : Text) :
    ∃ x, separator.intercalate (pieces ++ [p]) = x ++ p := by
  cases pieces with
  | nil => exact ⟨[], by simp⟩
  | cons q pieces =>
    refine ⟨separator.intercalate (q :: pieces) ++ separator, ?_⟩
    rw [intercalate_append (List.cons_ne_nil q pieces) (List.cons_ne_nil p [])]
    simp

/-- What stands behind joined pieces belongs to the last one. -/
theorem intercalate_concat_append (separator : Text) (pieces : List Text) (p t : Text) :
    separator.intercalate (pieces ++ [p]) ++ t = separator.intercalate (pieces ++ [p ++ t]) := by
  cases pieces with
  | nil => simp
  | cons q pieces =>
    have hne : q :: pieces ≠ [] := List.cons_ne_nil q pieces
    rw [intercalate_append hne (List.cons_ne_nil p []),
      intercalate_append hne (List.cons_ne_nil (p ++ t) [])]
    simp

/-- All of a separator but its first character can be taken for the beginning of the next piece. -/
theorem intercalate_cons_separator (c : Char) (separator p : Text) (pieces : List Text) :
    (c :: separator).intercalate (p :: pieces) =
      [c].intercalate (p :: pieces.map (separator ++ ·)) := by
  induction pieces generalizing p with
  | nil => rw [List.map_nil, List.intercalate_singleton, List.intercalate_singleton]
  | cons q pieces ih =>
    rw [List.map_cons, List.intercalate_cons_cons, List.intercalate_cons_cons, ih,
      ← append_intercalate_cons [c] separator q]
    simp

/-- Lists of pieces that are joined one by one, and joined again, are joined as one list. -/
theorem intercalate_flatMap {α : Type} (separator : Text) {pieces : α → List Text} {l : List α}
    (h : ∀ a ∈ l, pieces a ≠ []) :
    separator.intercalate (l.flatMap pieces) =
      separator.intercalate (l.map fun a => separator.intercalate (pieces a)) := by
  induction l with
  | nil => rfl
  | cons a l ih =>
    rw [List.forall_mem_cons] at h
    cases l with
    | nil => simp
    | cons b l =>
      have hne : (b :: l).flatMap pieces ≠ [] := by
        rw [List.flatMap_cons]
        exact List.append_ne_nil_of_left_ne_nil (h.2 b List.mem_cons_self) _
      rw [List.flatMap_cons, intercalate_append h.1 hne, ih h.2]
      simp [List.intercalate_cons_cons]

theorem count_intercalate {c : Char} {separator : Text} (hc : c ∉ separator) (pieces : List Text) :
    (separator.intercalate pieces).count c = pieces.flatten.count c := by
  induction pieces with
  | nil => rfl
  | cons p pieces ih =>
    cases pieces with
    | nil => simp
    | cons q pieces =>
      rw [List.intercalate_cons_cons, List.count_append, List.count_append, ih,
        List.count_eq_zero.mpr hc]
      simp

/-! ## Split pieces -/

theorem split_of_not_mem {separator : Char} {t : Text} (h : separator ∉ t) :
    split separator t = [t] := by
  induction t with
  | nil => rfl
  | cons c t ih =>
    rw [List.mem_cons, not_or] at h
    rw [split, if_neg (Ne.symm h.1), ih h.2]

theorem length_split (separator : Char) (t : Text) :
    (split separator t).length = t.count separator + 1 := by
  induction t with
  | nil => rfl
  | cons c t ih =>
    rw [split, List.count_cons]
    split
    · rename_i hc
      simp [ih, hc]
    · rename_i hc
      obtain ⟨piece, pieces, hsplit⟩ := List.exists_cons_of_ne_nil (split_ne_nil separator t)
      rw [hsplit] at ih ⊢
      simpa [hc] using ih

/-- Texts with a separator between them come apart there. -/
theorem split_append_separator (separator : Char) (t u : Text) :
    split separator (t ++ separator :: u) = split separator t ++ split separator u := by
  induction t with
  | nil => simp [split]
  | cons c t ih =>
    obtain ⟨piece, pieces, hsplit⟩ := List.exists_cons_of_ne_nil (split_ne_nil separator t)
    rw [List.cons_append, split, split, ih, hsplit]
    split <;> rfl

theorem split_append_cons {separator : Char} {p : Text} (h : separator ∉ p) (t : Text) :
    split separator (p ++ separator :: t) = p :: split separator t := by
  rw [split_append_separator, split_of_not_mem h]
  rfl

/-- Pieces without the separator come apart as they were joined. -/
theorem split_intercalate {separator : Char} {pieces : List Text} (hne : pieces ≠ [])
    (h : ∀ p ∈ pieces, separator ∉ p) :
    split separator ([separator].intercalate pieces) = pieces := by
  induction pieces with
  | nil => exact absurd rfl hne
  | cons p pieces ih =>
    rw [List.forall_mem_cons] at h
    cases pieces with
    | nil => rw [List.intercalate_singleton, split_of_not_mem h.1]
    | cons q pieces =>
      rw [List.intercalate_cons_cons, List.append_assoc, List.singleton_append,
        split_append_cons h.1, ih (List.cons_ne_nil q pieces) h.2]

/-- No piece has the separator in it. -/
theorem not_mem_of_mem_split {separator : Char} {piece t : Text} (h : piece ∈ split separator t) :
    separator ∉ piece := by
  induction t generalizing piece with
  | nil =>
    rw [split, List.mem_singleton] at h
    simp [h]
  | cons c t ih =>
    rw [split] at h
    split at h
    · rcases List.mem_cons.mp h with rfl | h
      · simp
      · exact ih h
    · rename_i hc
      obtain ⟨first, others, hsplit⟩ := List.exists_cons_of_ne_nil (split_ne_nil separator t)
      rw [hsplit] at h
      rcases List.mem_cons.mp h with rfl | h
      · have hfirst := ih (hsplit ▸ List.mem_cons_self)
        simpa using ⟨Ne.symm hc, hfirst⟩
      · exact ih (hsplit ▸ List.mem_cons_of_mem _ h)

/-- What is put before a text belongs to its first piece. -/
theorem split_append_left {separator : Char} {b : Text} (h : separator ∉ b) (t : Text) :
    ∃ piece pieces, split separator t = piece :: pieces ∧
      split separator (b ++ t) = (b ++ piece) :: pieces := by
  obtain ⟨piece, pieces, hsplit⟩ := List.exists_cons_of_ne_nil (split_ne_nil separator t)
  refine ⟨piece, pieces, hsplit, ?_⟩
  induction b with
  | nil => exact hsplit
  | cons c b ih =>
    rw [List.mem_cons, not_or] at h
    rw [List.cons_append, split, if_neg (Ne.symm h.1), ih h.2]
    rfl

/-- What is put behind a text belongs to its last piece. -/
theorem split_append_right {separator : Char} {b : Text} (h : separator ∉ b) (t : Text) :
    ∃ pieces piece, split separator t = pieces ++ [piece] ∧
      split separator (t ++ b) = pieces ++ [piece ++ b] := by
  induction t with
  | nil => exact ⟨[], [], rfl, split_of_not_mem h⟩
  | cons c t ih =>
    obtain ⟨pieces, piece, ht, htb⟩ := ih
    rw [List.cons_append, split, split, ht, htb]
    split
    · exact ⟨[] :: pieces, piece, rfl, rfl⟩
    · cases pieces with
      | nil => exact ⟨[], c :: piece, rfl, rfl⟩
      | cons q pieces => exact ⟨(c :: q) :: pieces, piece, rfl, rfl⟩

/-- The first piece stands at the head of the text, and the others stand in it. -/
theorem infix_of_split_eq_cons {separator : Char} {piece t : Text} {pieces : List Text}
    (h : split separator t = piece :: pieces) : piece <+: t ∧ ∀ p ∈ pieces, p <:+: t := by
  induction t generalizing piece pieces with
  | nil =>
    simp only [split, List.cons.injEq] at h
    obtain ⟨rfl, rfl⟩ := h
    simp
  | cons c t ih =>
    cases hsplit : split separator t with
    | nil => exact absurd hsplit (split_ne_nil separator t)
    | cons q qs =>
      obtain ⟨hq, hqs⟩ := ih hsplit
      have hqs' : ∀ p ∈ qs, p <:+: c :: t :=
        fun p hp => (hqs p hp).trans (List.suffix_cons c t).isInfix
      simp only [split, hsplit] at h
      split at h
      · obtain ⟨rfl, rfl⟩ := List.cons.inj h
        refine ⟨List.nil_prefix, fun p hp => ?_⟩
        rcases List.mem_cons.mp hp with rfl | hp
        · exact hq.isInfix.trans (List.suffix_cons c t).isInfix
        · exact hqs' p hp
      · obtain ⟨rfl, rfl⟩ := List.cons.inj h
        exact ⟨List.cons_prefix_cons.mpr ⟨rfl, hq⟩, hqs'⟩

/-- The first piece is what stands before the first separator. -/
theorem split_eq_takeWhile_cons (separator : Char) (t : Text) :
    ∃ pieces, split separator t = t.takeWhile (· != separator) :: pieces := by
  induction t with
  | nil => exact ⟨[], rfl⟩
  | cons c t ih =>
    obtain ⟨pieces, hsplit⟩ := ih
    rw [split, hsplit]
    by_cases hc : c = separator
    · simp [hc]
    · simp [hc]

theorem infix_of_mem_split {separator : Char} {piece t : Text} (h : piece ∈ split separator t) :
    piece <:+: t := by
  cases hsplit : split separator t with
  | nil => exact absurd hsplit (split_ne_nil separator t)
  | cons q qs =>
    obtain ⟨hq, hqs⟩ := infix_of_split_eq_cons hsplit
    rw [hsplit] at h
    rcases List.mem_cons.mp h with rfl | h
    · exact hq.isInfix
    · exact hqs piece h

end ScopedStyles.Text
