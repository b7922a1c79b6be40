import Mathlib.Data.List.TakeWhile
import ScopedStyles.Text.Blank

/-!
# Trimming

What `trim` leaves of a text that is put together from pieces: a character that is not blank keeps
the blanks of one piece away from the ends of the other.
-/

namespace ScopedStyles.Text

variable {c : Char} {x u : Text}

theorem trimStart_cons (hc : ¬ isBlank c) (u : Text) : trimStart (c :: u) = c :: u :=
  List.dropWhile_cons_of_neg hc

theorem trimStart_append_cons (hc : ¬ isBlank c) (x u : Text) :
    trimStart (x ++ c :: u) = trimStart x ++ c :: u := by
  induction x with
  | nil => exact trimStart_cons hc u
  | cons d x ih =>
    simp only [trimStart, List.cons_append, List.dropWhile_cons] at ih ⊢
    split
    · exact ih
    · rfl

/-- The blanks at the end of a text are those behind its last other character. -/
theorem trimEnd_append_cons (hc : ¬ isBlank c) (x u : Text) :
    trimEnd (x ++ c :: u) = x ++ c :: trimEnd u := by
  have h := trimStart_append_cons hc u.reverse x.reverse
  rw [trimStart, trimStart] at h
  rw [trimEnd, trimEnd, List.reverse_append, List.reverse_cons, List.append_assoc,
    List.singleton_append, h]
  simp

/-- On both sides of a character that is not blank a text is trimmed by itself. -/
theorem trim_append_cons (hc : ¬ isBlank c) (x u : Text) :
    trim (x ++ c :: u) = trimStart x ++ c :: trimEnd u := by
  rw [trim, trimStart_append_cons hc, trimEnd_append_cons hc]

theorem trim_cons (hc : ¬ isBlank c) (u : Text) : trim (c :: u) = c :: trimEnd u :=
  trim_append_cons hc [] u

theorem trimEnd_append_singleton (hc : ¬ isBlank c) (x : Text) : trimEnd (x ++ [c]) = x ++ [c] := by
  rw [trimEnd_append_cons hc]
  rfl

theorem trimEnd_eq_nil (hx : ∀ c ∈ x, isBlank c) : trimEnd x = [] := by
  rw [trimEnd, List.reverse_eq_nil_iff, List.dropWhile_eq_nil_iff]
  exact fun c hc => hx c (List.mem_reverse.mp hc)

theorem trimEnd_append_of_blanks (hu : ∀ c ∈ u, isBlank c) (x : Text) :
    trimEnd (x ++ u) = trimEnd x := by
  have hreverse : ∀ c ∈ u.reverse, isBlank c := fun c hc => hu c (List.mem_reverse.mp hc)
  rw [trimEnd, trimEnd, List.reverse_append, List.dropWhile_append_of_pos hreverse]

theorem trimStart_append (hx : trimStart x ≠ []) (u : Text) :
    trimStart (x ++ u) = trimStart x ++ u := by
  rw [trimStart] at hx
  simp [trimStart, List.dropWhile_append, hx]

theorem trim_append_of_blanks (hu : ∀ c ∈ u, isBlank c) (x : Text) : trim (x ++ u) = trim x := by
  by_cases hx : ∀ c ∈ x, isBlank c
  · have hnil : ∀ y : Text, (∀ c ∈ y, isBlank c) → trim y = [] := by
      intro y hy
      rw [trim, trimStart, List.dropWhile_eq_nil_iff.mpr hy]
      rfl
    rw [hnil x hx, hnil]
    exact fun c hc => (List.mem_append.mp hc).elim (hx c) (hu c)
  · have hne : trimStart x ≠ [] := fun h => hx (List.dropWhile_eq_nil_iff.mp h)
    rw [trim, trimStart_append hne, trimEnd_append_of_blanks hu, trim]

/-- What is left of a text between the blanks at its ends. -/
theorem exists_blanks_of_trim (x : Text) :
    ∃ b b', (∀ c ∈ b, isBlank c) ∧ (∀ c ∈ b', isBlank c) ∧ x = b ++ (trim x ++ b') := by
  refine ⟨x.takeWhile isBlank, blanksAtEnd (trimStart x), fun c hc => List.mem_takeWhile_imp hc,
    fun c hc => List.mem_takeWhile_imp (List.mem_reverse.mp hc), ?_⟩
  rw [trim, trimEnd_append_blanksAtEnd, trimStart, List.takeWhile_append_dropWhile]

theorem count_trim (hc : ¬ isBlank c) (t : Text) : (trim t).count c = t.count c := by
  obtain ⟨b, b', hb, hb', ht⟩ := exists_blanks_of_trim t
  have hnone : ∀ {u : Text}, (∀ d ∈ u, isBlank d) → u.count c = 0 := fun hu =>
    List.count_eq_zero.mpr fun hmem => hc (hu c hmem)
  conv => rhs; rw [ht, List.count_append, List.count_append, hnone hb, hnone hb']
  simp

theorem trimStart_append_of_blanks (hu : ∀ c ∈ u, isBlank c) (x : Text) :
    trimStart (u ++ x) = trimStart x := List.dropWhile_append_of_pos hu

theorem trim_append_left_of_blanks (hu : ∀ c ∈ u, isBlank c) (x : Text) :
    trim (u ++ x) = trim x := by
  rw [trim, trimStart_append_of_blanks hu, trim]

/-- A text that begins with a character that is not blank is not trimmed there. -/
theorem trimStart_eq_self (h : ∀ c ∈ x.head?, ¬ isBlank c) : trimStart x = x := by
  cases x with
  | nil => rfl
  | cons c x => exact trimStart_cons (h c rfl) x

theorem trimEnd_eq_self (h : ∀ c ∈ x.getLast?, ¬ isBlank c) : trimEnd x = x := by
  have hreverse : trimStart x.reverse = x.reverse := trimStart_eq_self (by simpa using h)
  rw [trimEnd, ← trimStart, hreverse, List.reverse_reverse]

/-- A text without blanks is not trimmed at the head of a text. -/
theorem trim_append_of_ink {k : Text} (hne : k ≠ []) (hk : ∀ c ∈ k, ¬ isBlank c) (x : Text) :
    trim (k ++ x) = k ++ trimEnd x := by
  obtain rfl | ⟨k, c, rfl⟩ := List.eq_nil_or_concat k
  · exact absurd rfl hne
  · have hstart : trimStart k = k := by
      refine trimStart_eq_self fun d hd => hk d ?_
      rw [List.concat_eq_append]
      exact List.mem_append_left _ (List.mem_of_head? hd)
    have hc : ¬ isBlank c := hk c (by simp)
    rw [List.concat_eq_append, List.append_assoc, List.singleton_append, trim_append_cons hc,
      hstart]
    simp

theorem blanksAtEnd_eq_nil (h : ∀ c ∈ x.getLast?, ¬ isBlank c) : blanksAtEnd x = [] := by
  have hsplit := trimEnd_append_blanksAtEnd x
  rw [trimEnd_eq_self h] at hsplit
  simpa using hsplit

theorem blanksAtEnd_append_of_blanks (hu : ∀ c ∈ u, isBlank c) (x : Text) :
    blanksAtEnd (x ++ u) = blanksAtEnd x ++ u := by
  have hreverse : ∀ c ∈ u.reverse, isBlank c := fun c hc => hu c (List.mem_reverse.mp hc)
  rw [blanksAtEnd, blanksAtEnd, List.reverse_append, List.takeWhile_append_of_pos hreverse]
  simp

/-- The blanks at the end of a text are behind its last other character. -/
theorem blanksAtEnd_append_cons (hc : ¬ isBlank c) (x u : Text) :
    blanksAtEnd (x ++ c :: u) = blanksAtEnd u := by
  have hsplit := trimEnd_append_blanksAtEnd (x ++ c :: u)
  rw [trimEnd_append_cons hc] at hsplit
  conv at hsplit => rhs; rw [← trimEnd_append_blanksAtEnd u]
  simpa using hsplit

theorem isBlank_of_mem_blanksAtEnd (h : c ∈ blanksAtEnd x) : isBlank c :=
  List.mem_takeWhile_imp (List.mem_reverse.mp h)

theorem trimEnd_append_congr {x y : Text} (h : trimEnd x = trimEnd y) (p : Text) :
    trimEnd (p ++ x) = trimEnd (p ++ y) := by
  have hblanks : ∀ {x : Text}, trimEnd (p ++ x) = trimEnd (p ++ trimEnd x) := by
    intro x
    conv => lhs; rw [← trimEnd_append_blanksAtEnd x, ← List.append_assoc]
    exact trimEnd_append_of_blanks (fun c hc => isBlank_of_mem_blanksAtEnd hc) _
  rw [hblanks, h, ← hblanks]

theorem not_isBlank_of_head?_trimStart (h : c ∈ (trimStart x).head?) : ¬ isBlank c := by
  have hhead := List.head?_dropWhile_not isBlank x
  rw [← trimStart, Option.mem_def.mp h] at hhead
  simpa using hhead

theorem trimStart_trimStart (t : Text) : trimStart (trimStart t) = trimStart t :=
  trimStart_eq_self fun _ => not_isBlank_of_head?_trimStart

/-- An end of a text ends as the text does. -/
theorem not_isBlank_of_suffix (h : ∀ c ∈ x.getLast?, ¬ isBlank c) (hu : u <:+ x) :
    ∀ c ∈ u.getLast?, ¬ isBlank c := by
  obtain ⟨p, rfl⟩ := hu
  intro c hc
  exact h c (by rw [List.getLast?_append, Option.mem_def.mp hc]; rfl)

theorem trimStart_suffix (t : Text) : trimStart t <:+ t := List.dropWhile_suffix _

theorem trimStart_suffix_append_cons (x : Text) (c : Char) (t : Text) :
    trimStart t <:+ x ++ c :: t :=
  (trimStart_suffix t).trans ((List.suffix_cons c t).trans (List.suffix_append x _))

theorem trimEnd_isPrefix (t : Text) : trimEnd t <+: t := by
  rw [trimEnd, ← List.reverse_suffix, List.reverse_reverse]
  exact List.dropWhile_suffix _

theorem not_isBlank_of_head?_trim (h : c ∈ (trim x).head?) : ¬ isBlank c := by
  obtain ⟨u, hu⟩ := trimEnd_isPrefix (trimStart x)
  refine not_isBlank_of_head?_trimStart (x := x) ?_
  rw [← hu, ← trim, List.head?_append, Option.mem_def.mp h]
  rfl

theorem not_isBlank_of_getLast?_trimEnd (h : c ∈ (trimEnd x).getLast?) : ¬ isBlank c := by
  refine not_isBlank_of_head?_trimStart (x := x.reverse) ?_
  rwa [trimEnd, List.getLast?_reverse, ← trimStart] at h

theorem trim_isInfix (t : Text) : trim t <:+: t :=
  (trimEnd_isPrefix _).isInfix.trans (trimStart_suffix t).isInfix

end ScopedStyles.Text
