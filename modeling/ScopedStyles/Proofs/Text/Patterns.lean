import ScopedStyles.Proofs.Text.Scans

/-!
# Patterns

A pattern is tried at the head of a text in all ways that it can match, one after the other: a
repetition takes as many characters as it can and then gives them back, or as few as it can and then
takes more. `Pattern.ends` are the texts left behind these matches, in this order, and the first one
counts (`Pattern.reader`). What a reader finds, a pattern with the same first match finds
(`Pattern.scan_reader_eq`).
-/

namespace ScopedStyles

open Text

/-- A regular expression. -/
inductive Pattern where
  /-- A word, letter by letter. -/
  | word (w : Text)
  /-- As many characters that satisfy `p` as possible. -/
  | many (p : Char → Bool)
  /-- As few characters that satisfy `p` as possible. -/
  | few (p : Char → Bool)
  /-- The first pattern, and the second one if that leads to nothing. -/
  | either (first second : Pattern)
  /-- The second pattern behind the first one. -/
  | andThen (first second : Pattern)

namespace Pattern

variable {P Q : Pattern} {p : Char → Bool} {w t rest : Text}

/-- What is left behind characters that satisfy `p`, all of them first. -/
def manyEnds (p : Char → Bool) : Text → List Text
  | [] => [[]]
  | c :: t => if p c then manyEnds p t ++ [c :: t] else [c :: t]

/-- What is left behind characters that satisfy `p`, none of them first. -/
def fewEnds (p : Char → Bool) : Text → List Text
  | [] => [[]]
  | c :: t => if p c then (c :: t) :: fewEnds p t else [c :: t]

/-- What is left behind the matches of a pattern at the head of a text, in the order in which they
are tried. -/
def ends : Pattern → Text → List Text
  | word w, t => (after? .exact w t).toList
  | many p, t => manyEnds p t
  | few p, t => fewEnds p t
  | either P Q, t => P.ends t ++ Q.ends t
  | andThen P Q, t => (P.ends t).flatMap Q.ends

/-! ## Matches -/

theorem mem_manyEnds : rest ∈ manyEnds p t ↔ ∃ x, t = x ++ rest ∧ ∀ c ∈ x, p c := by
  induction t with
  | nil =>
    rw [manyEnds, List.mem_singleton]
    constructor
    · rintro rfl
      exact ⟨[], rfl, by simp⟩
    · rintro ⟨x, hx, -⟩
      exact (List.append_eq_nil_iff.mp hx.symm).2
  | cons c t ih =>
    have hcons : (∃ x, c :: t = x ++ rest ∧ ∀ d ∈ x, p d) ↔
        rest = c :: t ∨ p c ∧ ∃ x, t = x ++ rest ∧ ∀ d ∈ x, p d := by
      constructor
      · rintro ⟨x, hx, hall⟩
        cases x with
        | nil => exact .inl hx.symm
        | cons d x =>
          obtain ⟨rfl, rfl⟩ := List.cons.inj hx
          rw [List.forall_mem_cons] at hall
          exact .inr ⟨hall.1, x, rfl, hall.2⟩
      · rintro (rfl | ⟨hc, x, rfl, hall⟩)
        · exact ⟨[], rfl, by simp⟩
        · exact ⟨c :: x, rfl, List.forall_mem_cons.mpr ⟨hc, hall⟩⟩
    rw [hcons, manyEnds]
    by_cases hc : p c
    · rw [if_pos hc, List.mem_append, ih, List.mem_singleton]
      simp [hc, or_comm]
    · rw [if_neg hc, List.mem_singleton]
      simp [hc]

theorem suffix_of_mem_fewEnds (h : rest ∈ fewEnds p t) : rest <:+ t := by
  induction t with
  | nil => exact List.mem_singleton.mp h ▸ List.suffix_refl []
  | cons c t ih =>
    rw [fewEnds] at h
    split at h
    · rcases List.mem_cons.mp h with rfl | h
      · exact List.suffix_refl _
      · exact (ih h).trans (List.suffix_cons c t)
    · exact List.mem_singleton.mp h ▸ List.suffix_refl _

/-- What is left behind a match is an end of the text. -/
theorem suffix_of_mem_ends (h : rest ∈ P.ends t) : rest <:+ t := by
  induction P generalizing t rest with
  | word w => exact suffix_of_after? (Option.mem_toList.mp h)
  | many p =>
    obtain ⟨x, rfl, -⟩ := mem_manyEnds.mp h
    exact List.suffix_append x rest
  | few p => exact suffix_of_mem_fewEnds h
  | either P Q ihP ihQ => exact (List.mem_append.mp h).elim ihP ihQ
  | andThen P Q ihP ihQ =>
    obtain ⟨behind, hP, hQ⟩ := List.mem_flatMap.mp h
    exact (ihQ hQ).trans (ihP hP)

theorem mem_ends_word : rest ∈ (word w).ends t ↔ t = w ++ rest :=
  Option.mem_toList.trans after?_exact

theorem mem_ends_many : rest ∈ (many p).ends t ↔ ∃ x, t = x ++ rest ∧ ∀ c ∈ x, p c := mem_manyEnds

theorem mem_ends_either : rest ∈ (either P Q).ends t ↔ rest ∈ P.ends t ∨ rest ∈ Q.ends t :=
  List.mem_append

theorem mem_ends_andThen :
    rest ∈ (andThen P Q).ends t ↔ ∃ behind ∈ P.ends t, rest ∈ Q.ends behind := List.mem_flatMap

theorem ends_word_andThen (w : Text) (P : Pattern) (t : Text) :
    (andThen (word w) P).ends t = (after? .exact w t).toList.flatMap P.ends := rfl

theorem head?_ends_word_andThen (w : Text) (P : Pattern) (t : Text) :
    ((andThen (word w) P).ends t).head? =
      (after? .exact w t).bind fun behind => (P.ends behind).head? := by
  rw [ends_word_andThen]
  cases after? .exact w t with
  | none => rfl
  | some behind => rw [Option.toList_some, List.flatMap_singleton, Option.bind_some]

/-- Trying a word behind fewer characters first finds its first occurrence. -/
theorem head?_ends_few_word (w t : Text) :
    ((andThen (few fun _ => true) (word w)).ends t).head? =
      (cut .exact w t).map Prod.snd := by
  show ((fewEnds (fun _ => true) t).flatMap fun behind => (after? .exact w behind).toList).head? = _
  induction t with
  | nil => cases w <;> rfl
  | cons c t ih =>
    rw [fewEnds, if_pos rfl, List.flatMap_cons, cut]
    cases hafter : after? .exact w (c :: t) with
    | some rest => rfl
    | none =>
      rw [Option.toList_none, List.nil_append, ih, Option.map_map]
      rfl

/-- Characters that cannot begin the word may be passed over before it is looked for. -/
theorem head?_ends_many_few_word {a : Char} (hp : ∀ c, p c → c ≠ a) (w t : Text) :
    ((andThen (many p) (andThen (few fun _ => true) (word (a :: w)))).ends t).head? =
      (cut .exact (a :: w) t).map Prod.snd := by
  show ((manyEnds p t).flatMap (andThen (few fun _ => true) (word (a :: w))).ends).head? = _
  induction t with
  | nil => rw [manyEnds, List.flatMap_singleton, head?_ends_few_word]
  | cons c t ih =>
    rw [manyEnds]
    split
    · rename_i hc
      have hnone : after? .exact (a :: w) (c :: t) = none := by
        simp [after?, Letters.agree, Ne.symm (hp c hc)]
      have hcut : (cut .exact (a :: w) (c :: t)).map Prod.snd =
          (cut .exact (a :: w) t).map Prod.snd := by
        rw [cut, hnone, Option.map_map]
        rfl
      -- giving the character back leads to what was tried before
      rw [List.flatMap_append, List.flatMap_singleton, List.head?_append, ih, head?_ends_few_word,
        hcut, Option.or_self]
    · rw [List.flatMap_singleton, head?_ends_few_word]

/-! ## Patterns as readers -/

/-- Whatever the pattern matches has at least one character. -/
def Consumes (P : Pattern) : Prop := ∀ t, ∀ rest ∈ P.ends t, rest.length < t.length

theorem consumes_word_andThen (hw : w ≠ []) (P : Pattern) : (andThen (word w) P).Consumes := by
  intro t rest h
  obtain ⟨behind, hword, hP⟩ := List.mem_flatMap.mp h
  have hlen := length_after? (Option.mem_toList.mp hword)
  have hle := (suffix_of_mem_ends hP).length_le
  have hpos := List.length_pos_iff.mpr hw
  omega

/-- Finds what a pattern matches. -/
def reader (P : Pattern) (h : P.Consumes) : Reader Text where
  read t := (P.ends t).head?.map fun rest => (t.take (t.length - rest.length), rest)
  shorter := by
    intro t a rest hread
    obtain ⟨behind, hend, heq⟩ := Option.map_eq_some_iff.mp hread
    obtain ⟨-, rfl⟩ := Prod.mk.inj heq
    exact h t behind (List.mem_of_mem_head? hend)

/-- A pattern finds what a reader finds, if its first match is what the reader reads. -/
theorem scan_reader_eq {α : Type} {R : Reader α} {written : α → Text} (h : P.Consumes)
    (hends : ∀ t, (P.ends t).head? = (R.read t).map Prod.snd)
    (hwritten : ∀ t a rest, R.read t = some (a, rest) → t = written a ++ rest) (t : Text) :
    (P.reader h).scan t = (R.scan t).map (Piece.map written) := by
  refine Reader.scan_map written (fun t => ?_) t
  show (P.ends t).head?.map (fun rest => (t.take (t.length - rest.length), rest)) = _
  rw [hends]
  cases hread : R.read t with
  | none => rfl
  | some found =>
    obtain ⟨a, rest⟩ := found
    have ht := hwritten t a rest hread
    have htake : t.take (t.length - rest.length) = written a := by
      rw [ht, List.length_append, Nat.add_sub_cancel, List.take_left]
    rw [Option.map_some, Option.map_some, Option.map_some, htake]

end Pattern

end ScopedStyles
