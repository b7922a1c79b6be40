import ScopedStyles.Proofs.Host.Words
import ScopedStyles.Proofs.Text.Scans

/-!
# Host selectors in front of a block

What stands behind the opening brace of a block takes no part in the host selectors before it,
unless it closes a parenthesis that one of them has opened (`use?_append_open`). Then blanks at the
end of a text are there afterwards too (`IsSettled.normalize_append`).
-/

namespace ScopedStyles.Host

open Text

/-- Every closing parenthesis of a text has an opening one before it. -/
def OpensFirst (t : Text) : Prop := ∀ p : Text, p <+: t → p.count ')' ≤ p.count '('

instance (t : Text) : Decidable (OpensFirst t) :=
  decidable_of_iff (∀ p ∈ t.inits, p.count ')' ≤ p.count '(') (by simp [OpensFirst])

/-- Behind one of its opening braces a text does not name the host, and closes no parenthesis that
is open there, or it does not name the host at all. -/
def IsSettled (t : Text) : Prop :=
  Lacks names t ∨ ∃ a z, t = a ++ '{' :: z ∧ Lacks names z ∧ OpensFirst z

variable {nested : Bool} {t u z a rest : Text}

/-! ## Arguments -/

theorem argument?_cons_plain {c : Char} (hopen : c ≠ '(') (hclose : c ≠ ')') (t : Text) :
    argument? nested (c :: t) = (argument? nested t).map fun (a, rest) => (c :: a, rest) := by
  cases nested <;> simp [argument?, hopen, hclose]

/-- An argument closes what it opens, and the parenthesis behind it one that is open before it. -/
theorem count_of_argument? (h : argument? nested t = some (a, rest)) :
    t = a ++ ')' :: rest ∧ a.count ')' = a.count '(' + nested.toNat := by
  induction t generalizing nested a with
  | nil => cases h
  | cons c t ih =>
    have hcons : ∀ {nested' : Bool}, (argument? nested' t).map (fun (a, rest) => (c :: a, rest)) =
        some (a, rest) → c :: t = a ++ ')' :: rest ∧
          ∃ b, a = c :: b ∧ b.count ')' = b.count '(' + nested'.toNat := by
      intro nested' h
      simp only [Option.map_eq_some_iff, Prod.mk.injEq, Prod.exists] at h
      obtain ⟨b, r, hr, rfl, rfl⟩ := h
      obtain ⟨rfl, hcount⟩ := ih hr
      exact ⟨rfl, b, rfl, hcount⟩
    by_cases hopen : c = '('
    · subst hopen
      cases nested with
      | true => cases h
      | false =>
        obtain ⟨heq, b, rfl, hcount⟩ := hcons h
        refine ⟨heq, ?_⟩
        simp at hcount ⊢
        omega
    · by_cases hclose : c = ')'
      · subst hclose
        cases nested with
        | true =>
          obtain ⟨heq, b, rfl, hcount⟩ := hcons h
          refine ⟨heq, ?_⟩
          simp at hcount ⊢
          omega
        | false =>
          simp only [argument?, Option.some.injEq, Prod.mk.injEq] at h
          obtain ⟨rfl, rfl⟩ := h
          simp
      · rw [argument?_cons_plain hopen hclose] at h
        obtain ⟨heq, b, rfl, hcount⟩ := hcons h
        refine ⟨heq, ?_⟩
        simpa [hopen, hclose] using hcount

theorem OpensFirst.argument?_eq_none (h : OpensFirst t) (nested : Bool) :
    argument? nested t = none := by
  cases hread : argument? nested t with
  | none => rfl
  | some found =>
    obtain ⟨a, rest⟩ := found
    obtain ⟨rfl, hcount⟩ := count_of_argument? hread
    have hle := h (a ++ [')']) ⟨rest, by simp⟩
    simp at hle
    omega

/-- In front of a text in which no argument ends an argument ends as if nothing followed. -/
theorem argument?_append_eq_map (hu : ∀ nested, argument? nested u = none) (t : Text) :
    argument? nested (t ++ u) = (argument? nested t).map fun (a, rest) => (a, rest ++ u) := by
  induction t generalizing nested with
  | nil => rw [List.nil_append, hu]; cases nested <;> rfl
  | cons c t ih =>
    by_cases hopen : c = '('
    · subst hopen
      cases nested with
      | true => rfl
      | false => simp [argument?, ih, Function.comp_def]
    · by_cases hclose : c = ')'
      · subst hclose
        cases nested with
        | true => simp [argument?, ih, Function.comp_def]
        | false => rfl
      · rw [List.cons_append, argument?_cons_plain hopen hclose,
          argument?_cons_plain hopen hclose, ih]
        simp [Function.comp_def]

/-! ## Uses -/

/-- An argument that ends as if nothing followed is split off in front of what ends a selector. -/
theorem splitArgument_append_cons {c : Char} (hc : ¬ inSelector c)
    (h : ∀ v, t = '(' :: v → argument? false (v ++ c :: u) =
      (argument? false v).map fun (a, rest) => (a, rest ++ c :: u)) :
    splitArgument (t ++ c :: u) = ((splitArgument t).1, (splitArgument t).2 ++ c :: u) := by
  cases t with
  | nil =>
    have hne : c ≠ '(' := by
      rintro rfl
      exact hc (by decide)
    simp [splitArgument, hne]
  | cons d t =>
    by_cases hopen : d = '('
    · subst hopen
      simp only [List.cons_append, splitArgument, h t rfl]
      cases argument? false t <;> rfl
    · simp [splitArgument, hopen]

/-- A selector ends before the first character that belongs to none. -/
theorem span_inSelector_append_cons {c : Char} (hc : ¬ inSelector c) (t u : Text) :
    (t ++ c :: u).takeWhile inSelector = t.takeWhile inSelector ∧
      (t ++ c :: u).dropWhile inSelector = t.dropWhile inSelector ++ c :: u := by
  induction t with
  | nil => exact ⟨List.takeWhile_cons_of_neg hc, List.dropWhile_cons_of_neg hc⟩
  | cons d t ih => by_cases hd : inSelector d <;> simp [hd, ih]

/-- A use ends before what ends its selector, if its argument does. -/
theorem use?_append_cons {word : Text} {c : Char} (hword : word ≠ [])
    (hletters : ∀ a ∈ word, ¬ Letters.anyCase.agree a c) (hc : ¬ inSelector c)
    (h : ∀ v, after? .anyCase word t = some ('(' :: v) → argument? false (v ++ c :: u) =
      (argument? false v).map fun (a, rest) => (a, rest ++ c :: u)) :
    use? word (t ++ c :: u) = (use? word t).map fun (use, rest) => (use, rest ++ c :: u) := by
  have hbars := bars_cons (fun a ha => hletters a (List.mem_of_mem_tail ha)) u
  rw [use?, use?, after?_append_eq_map hbars (after?_cons_of_disagree hword hletters u)]
  cases hafter : after? .anyCase word t with
  | none => rfl
  | some rest =>
    have hsplit := splitArgument_append_cons hc fun v hv => h v (hv ▸ hafter)
    obtain ⟨htake, hdrop⟩ := span_inSelector_append_cons hc (splitArgument rest).2 u
    simp only [Option.map_some, hsplit, htake, hdrop]

theorem use?_append_open {word : Text} (hword : word ≠ [])
    (hbrace : ∀ a ∈ word, ¬ Letters.anyCase.agree a '{') (hz : OpensFirst z) (t : Text) :
    use? word (t ++ '{' :: z) =
      (use? word t).map fun (use, rest) => (use, rest ++ '{' :: z) := by
  refine use?_append_cons hword hbrace (by decide) fun v _ => argument?_append_eq_map ?_ v
  intro nested
  rw [argument?_cons_plain (by decide) (by decide), hz.argument?_eq_none]
  rfl

/-- A use ends before the block that follows it. -/
theorem stopsBefore_hostReader (hz : OpensFirst z) : hostReader.StopsBefore ('{' :: z) :=
  fun t _ => use?_append_open (by decide) (by decide) hz t

theorem stopsBefore_contextReader (hz : OpensFirst z) : contextReader.StopsBefore ('{' :: z) :=
  fun t _ => use?_append_open (by decide) (by decide) hz t

/-! ## Normalizing -/

theorem flattenCombinators_append_of_blanks (hu : ∀ c ∈ u, isBlank c) (t : Text) :
    flattenCombinators (t ++ u) = flattenCombinators t ++ u := by
  cases u with
  | nil => simp
  | cons c u =>
    rw [List.forall_mem_cons] at hu
    have hdivides : Divides piercing c :=
      fun w hw => divides_of_isBlank hu.1 w (List.mem_append_right _ hw)
    rw [flattenCombinators_append_cons hdivides,
      flattenCombinators_of_lacks (isPlain_iff.mp (isPlain_of_blanks hu.2)).2]

theorem normalize_of_lacks_names (h : Lacks names t) : normalize t = flattenCombinators t := by
  obtain ⟨hhost, hmarker, hcontext⟩ := lacks_names_iff.mp h
  rw [normalize, mark_of_not_includes hhost,
    Reader.substitute_of_not_includes awaitsLiteral_hostReader hmarker,
    Reader.substitute_of_not_includes awaitsLiteral_contextReader hcontext]

/-- What stands behind an opening brace is normalized by itself. -/
theorem normalize_append_open (hnames : Lacks names z) (hz : OpensFirst z) (a : Text) :
    normalize (a ++ '{' :: z) = normalize a ++ '{' :: flattenCombinators z := by
  have hwords : Divides words '{' := by decide
  have hopen : Lacks names ('{' :: z) := (lacks_cons (divides_names hwords) z).mpr hnames
  obtain ⟨hhost, -, -⟩ := lacks_names_iff.mp hnames
  obtain ⟨-, hmarker, hcontext⟩ := lacks_names_iff.mp hopen
  rw [normalize, mark_append_cons hwords, mark_of_not_includes hhost,
    Reader.substitute_append (stopsBefore_hostReader hz),
    Reader.substitute_of_not_includes awaitsLiteral_hostReader hmarker,
    Reader.substitute_append (stopsBefore_contextReader hz),
    Reader.substitute_of_not_includes awaitsLiteral_contextReader hcontext,
    flattenCombinators_append_cons (fun w hw => hwords w (List.mem_append_right _ hw)), normalize]

theorem OpensFirst.append_of_blanks (hz : OpensFirst z) (hu : ∀ c ∈ u, isBlank c) :
    OpensFirst (z ++ u) := by
  intro p hp
  obtain ⟨s, hs⟩ := hp
  obtain ⟨y, rfl, -⟩ | ⟨y, rfl, hy⟩ := List.append_eq_append_iff.mp hs
  · exact hz p (List.prefix_append p y)
  · have hle := hz z (List.prefix_refl z)
    have hclose : y.count ')' = 0 := by
      refine List.count_eq_zero.mpr fun hc => ?_
      exact absurd (hu _ (hy ▸ List.mem_append_left s hc)) (by decide)
    rw [List.count_append, List.count_append, hclose]
    omega

/-- Blanks behind a settled text stay behind it. -/
theorem IsSettled.normalize_append (h : IsSettled t) (hu : ∀ c ∈ u, isBlank c) :
    normalize (t ++ u) = normalize t ++ u := by
  have hdivides : ∀ c ∈ u, Divides names c :=
    fun c hc => divides_names (divides_of_isBlank (hu c hc))
  obtain hnames | ⟨a, z, rfl, hnames, hz⟩ := h
  · rw [normalize_of_lacks_names (lacks_append_right_of_divides hdivides hnames),
      normalize_of_lacks_names hnames, flattenCombinators_append_of_blanks hu]
  · have hnames' := lacks_append_right_of_divides hdivides hnames
    rw [List.append_assoc, List.cons_append, normalize_append_open hnames' (hz.append_of_blanks hu),
      normalize_append_open hnames hz, flattenCombinators_append_of_blanks hu]
    simp

end ScopedStyles.Host
