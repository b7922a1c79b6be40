import Mathlib.Data.List.Infix
import ScopedStyles.Text.Reader

/-!
# Occurrences

Where a literal occurs in a text that is put together from pieces. An occurrence lies within one
piece if the next one bars it (`Text.Bars`): no proper end of the literal stands at its head. A
reader that waits for a literal then passes over a piece without it (`Reader.AwaitsLiteral.passes`),
and whatever it finds in the pieces it finds in the text (`Reader.scan_append`).
-/

namespace ScopedStyles

namespace Text

/-- Of the characters of a text one is looked at after the other, not all characters there are. -/
instance (priority := high) decidableForallMem (t : Text) (p : Char → Prop) [DecidablePred p] :
    Decidable (∀ c ∈ t, p c) := List.decidableBAll p t

variable {m : Letters} {w x u : Text} {c : Char}

/-! ## Literals at the head -/

theorem after?_append {rest : Text} (h : after? m w x = some rest) (u : Text) :
    after? m w (x ++ u) = some (rest ++ u) := by
  induction w generalizing x with
  | nil =>
    simp only [after?, Option.some.injEq] at h
    rw [h, after?]
  | cons a w ih =>
    cases x with
    | nil => simp [after?] at h
    | cons c x =>
      simp only [after?] at h
      simp only [List.cons_append, after?]
      split at h
      · rename_i hagree
        rw [if_pos hagree, ih h]
      · simp at h

/-- What follows a literal is an end of the text. -/
theorem suffix_of_after? {rest : Text} (h : after? m w x = some rest) : rest <:+ x := by
  induction w generalizing x with
  | nil =>
    simp only [after?, Option.some.injEq] at h
    rw [h]
  | cons a w ih =>
    cases x with
    | nil => simp [after?] at h
    | cons c x =>
      simp only [after?] at h
      split at h
      · exact (ih h).trans (List.suffix_cons c x)
      · simp at h

/-- A literal that does not stand at the head of a text either does not stand there when the text
goes on, or the text is a proper beginning of it and the rest of it follows. -/
theorem after?_append_of_none (h : after? m w x = none) (u : Text) :
    after? m w (x ++ u) = none ∨
      ∃ v, v <:+ w ∧ v ≠ [] ∧ v.length + x.length = w.length ∧
        after? m w (x ++ u) = after? m v u := by
  induction x generalizing w with
  | nil =>
    refine .inr ⟨w, List.suffix_refl w, ?_, rfl, rfl⟩
    rintro rfl
    simp [after?] at h
  | cons c x ih =>
    cases w with
    | nil => simp [after?] at h
    | cons a w =>
      simp only [after?] at h
      simp only [List.cons_append, after?]
      split at h
      · rename_i hagree
        simp only [if_pos hagree]
        obtain hnone | ⟨v, hv, hne, hlen, heq⟩ := ih h
        · exact .inl hnone
        · refine .inr ⟨v, hv.trans (List.suffix_cons a w), hne, ?_, heq⟩
          simp only [List.length_cons]
          omega
      · rename_i hagree
        exact .inl (if_neg hagree)

theorem exists_of_after?_cons {a : Char} {rest : Text} (h : after? m (a :: w) x = some rest) :
    ∃ d y, x = d :: y ∧ m.agree a d ∧ after? m w y = some rest := by
  cases x with
  | nil => simp [after?] at h
  | cons d y =>
    simp only [after?] at h
    split at h
    · rename_i hagree
      exact ⟨d, y, rfl, hagree, h⟩
    · simp at h

/-- A text that a literal stands for has no characters but those of the literal. -/
theorem exists_agree_of_after? (h : after? m w x = some []) : ∀ c ∈ x, ∃ a ∈ w, m.agree a c := by
  induction w generalizing x with
  | nil =>
    simp only [after?, Option.some.injEq] at h
    simp [h]
  | cons b w ih =>
    obtain ⟨d, y, rfl, hagree, hy⟩ := exists_of_after?_cons h
    intro c hc
    rcases List.mem_cons.mp hc with rfl | hc
    · exact ⟨b, List.mem_cons_self, hagree⟩
    · obtain ⟨a, ha, hagree⟩ := ih hy c hc
      exact ⟨a, List.mem_cons_of_mem b ha, hagree⟩

/-! ## Occurrences -/

theorem includes_cons (m : Letters) (w : Text) (c : Char) (t : Text) :
    includes m w (c :: t) = ((after? m w (c :: t)).isSome || includes m w t) := by
  simp only [includes, cut]
  cases after? m w (c :: t) with
  | some rest => rfl
  | none => simp

theorem includes_iff : includes m w x ↔ ∃ p t, x = p ++ t ∧ (after? m w t).isSome := by
  induction x with
  | nil =>
    simp only [includes, cut]
    cases w <;> simp [after?]
  | cons c x ih =>
    rw [includes_cons, Bool.or_eq_true, ih]
    constructor
    · rintro (h | ⟨p, t, rfl, h⟩)
      · exact ⟨[], c :: x, rfl, h⟩
      · exact ⟨c :: p, t, rfl, h⟩
    · rintro ⟨p, t, heq, h⟩
      cases p with
      | nil =>
        rw [List.nil_append] at heq
        exact .inl (heq ▸ h)
      | cons d p =>
        obtain ⟨-, rfl⟩ := List.cons.inj heq
        exact .inr ⟨p, t, rfl, h⟩

theorem includes_of_isInfix {t : Text} (ht : t <:+: x) (h : includes m w t) : includes m w x := by
  obtain ⟨p, q, rfl⟩ := ht
  obtain ⟨p', t', rfl, ht'⟩ := includes_iff.mp h
  obtain ⟨rest, hrest⟩ := Option.isSome_iff_exists.mp ht'
  refine includes_iff.mpr ⟨p ++ p', t' ++ q, by simp, ?_⟩
  rw [after?_append hrest q]
  rfl

theorem not_includes_of_isInfix {t : Text} (ht : t <:+: x) (h : ¬ includes m w x) :
    ¬ includes m w t := mt (includes_of_isInfix ht) h

/-- A nonempty literal does not stand at the head of any end of a text in which it does not
occur. -/
theorem after?_eq_none_of_not_includes (h : ¬ includes m w x) {t : Text} (ht : t <:+ x) :
    after? m w t = none := by
  obtain ⟨p, rfl⟩ := ht
  by_contra hsome
  exact h (includes_iff.mpr ⟨p, t, rfl, Option.isSome_iff_ne_none.mpr hsome⟩)

/-- No occurrence of `w` that begins before `u` reaches into it. -/
def Bars (m : Letters) (w u : Text) : Prop :=
  ∀ v, v <:+ w → v ≠ w → v ≠ [] → after? m v u = none

instance (m : Letters) (w u : Text) : Decidable (Bars m w u) :=
  decidable_of_iff (∀ v ∈ w.tails, v ≠ w → v ≠ [] → after? m v u = none) (by simp [Bars])

/-- A text bars a literal if its first character does not stand in the literal, the first place
apart. -/
theorem bars_cons (hc : ∀ a ∈ w.tail, ¬ m.agree a c) (u : Text) : Bars m w (c :: u) := by
  intro v hv hne hnil
  obtain ⟨p, rfl⟩ := hv
  cases v with
  | nil => exact absurd rfl hnil
  | cons a v =>
    have ha : a ∈ (p ++ a :: v).tail := by
      cases p with
      | nil => exact absurd rfl hne
      | cons b p => simp
    simp [after?, hc a ha]

theorem bars_nil : Bars m w [] := by
  intro v _ _ hnil
  cases v with
  | nil => exact absurd rfl hnil
  | cons a v => rfl

theorem after?_cons_of_disagree (hw : w ≠ []) (hc : ∀ a ∈ w, ¬ m.agree a c) (u : Text) :
    after? m w (c :: u) = none := by
  cases w with
  | nil => exact absurd rfl hw
  | cons a w => simp [after?, hc a List.mem_cons_self]

theorem after?_append_eq_none (hx : after? m w x = none) (hne : x ≠ []) (hu : Bars m w u) :
    after? m w (x ++ u) = none := by
  obtain hnone | ⟨v, hv, hnil, hlen, heq⟩ := after?_append_of_none hx u
  · exact hnone
  · rw [heq]
    refine hu v hv ?_ hnil
    rintro rfl
    have := List.length_pos_iff.mpr hne
    omega

theorem includes_append_of_bars (hu : Bars m w u) (x : Text) :
    includes m w (x ++ u) = (includes m w x || includes m w u) := by
  induction x with
  | nil =>
    cases w with
    | nil => cases u <;> rfl
    | cons a w => rfl
  | cons c x ih =>
    rw [List.cons_append, includes_cons, ih, includes_cons, Bool.or_assoc]
    cases hx : after? m w (c :: x) with
    | some rest =>
      rw [← List.cons_append, after?_append hx u]
      rfl
    | none =>
      rw [← List.cons_append, after?_append_eq_none hx (List.cons_ne_nil c x) hu]

/-- No occurrence begins where the first character of the literal does not stand. -/
theorem includes_append_of_disagree {a : Char} (hx : ∀ c ∈ x, ¬ m.agree a c) (u : Text) :
    includes m (a :: w) (x ++ u) = includes m (a :: w) u := by
  induction x with
  | nil => rfl
  | cons c x ih =>
    rw [List.forall_mem_cons] at hx
    have hnone : after? m (a :: w) (c :: (x ++ u)) = none := by simp [after?, hx.1]
    rw [List.cons_append, includes_cons, hnone, ih hx.2]
    rfl

/-- An occurrence is on one side of a character that does not stand in the literal. -/
theorem includes_append_cons (hw : w ≠ []) (hc : ∀ a ∈ w, ¬ m.agree a c) (x u : Text) :
    includes m w (x ++ c :: u) = (includes m w x || includes m w u) := by
  rw [includes_append_of_bars (bars_cons (fun a ha => hc a (List.mem_of_mem_tail ha)) u),
    includes_cons, after?_cons_of_disagree hw hc]
  rfl

end Text

namespace Reader

open Text

variable {α : Type} {R : Reader α} {m : Letters} {w x u : Text} {c : Char}

theorem read_nil (R : Reader α) : R.read [] = none := by
  cases h : R.read [] with
  | none => rfl
  | some found =>
    obtain ⟨a, rest⟩ := found
    have := R.shorter h
    simp at this

theorem substitute_of_read {rest : Text} {a : α} (h : R.read x = some (a, rest))
    (write : α → Text) : R.substitute write x = write a ++ R.substitute write rest := by
  cases x with
  | nil =>
    rw [R.read_nil] at h
    cases h
  | cons c x => simp [substitute, scan_of_read h]

theorem substitute_cons_of_none (h : R.read (c :: x) = none) (write : α → Text) :
    R.substitute write (c :: x) = c :: R.substitute write x := by
  simp [substitute, scan_of_none h]

/-! ## Texts that are passed over -/

/-- Nothing that is found begins in `x` where `u` follows it. -/
def Passes (R : Reader α) (x u : Text) : Prop := ∀ t, t <:+ x → t ≠ [] → R.read (t ++ u) = none

namespace Passes

theorem scan_append (h : R.Passes x u) : R.scan (x ++ u) = x.map .plain ++ R.scan u := by
  induction x with
  | nil => rfl
  | cons c x ih =>
    have hnone : R.read (c :: (x ++ u)) = none := h _ (List.suffix_refl _) (List.cons_ne_nil c x)
    rw [List.cons_append, scan_of_none hnone,
      ih fun t ht hne => h t (ht.trans (List.suffix_cons c x)) hne]
    rfl

theorem scan_eq (h : R.Passes x []) : R.scan x = x.map .plain := by
  have hscan := h.scan_append
  rwa [List.append_nil, scan_nil, List.append_nil] at hscan

theorem substitute_append (h : R.Passes x u) (write : α → Text) :
    R.substitute write (x ++ u) = x ++ R.substitute write u := by
  rw [substitute, h.scan_append, List.flatMap_append, List.flatMap_map]
  simp [substitute]

theorem substitute_eq (h : R.Passes x []) (write : α → Text) : R.substitute write x = x := by
  rw [substitute, h.scan_eq, List.flatMap_map]
  simp

theorem found_eq_nil (h : R.Passes x []) : R.found x = [] := by
  rw [found, h.scan_eq, List.filterMap_map]
  simp

theorem between_append (h : R.Passes x u) :
    R.between (x ++ u) = (x ++ (R.between u).1, (R.between u).2) := by
  simp only [between, h.scan_append, List.foldr_append, List.foldr_map]
  clear h
  induction x with
  | nil => rfl
  | cons d x ih => simp [ih]

end Passes

/-! ## Waiting for a literal -/

/-- A reader that finds nothing where a text does not begin with `w`. -/
def AwaitsLiteral (R : Reader α) (m : Letters) (w : Text) : Prop :=
  ∀ t, after? m w t = none → R.read t = none

theorem awaitsLiteral_literal (m : Letters) (w : Text) : (literal m w).AwaitsLiteral m w := by
  intro t ht
  simp [literal, ht]

/-- What does not hold the literal is passed over. -/
theorem AwaitsLiteral.passes (hR : R.AwaitsLiteral m w) (hx : ¬ includes m w x)
    (hu : Bars m w u) : R.Passes x u := fun _ ht hne =>
  hR _ (after?_append_eq_none (after?_eq_none_of_not_includes hx ht) hne hu)

theorem substitute_of_not_includes (hR : R.AwaitsLiteral m w) (hx : ¬ includes m w x)
    (write : α → Text) : R.substitute write x = x := (hR.passes hx bars_nil).substitute_eq write

theorem found_of_not_includes (hR : R.AwaitsLiteral m w) (hx : ¬ includes m w x) :
    R.found x = [] := (hR.passes hx bars_nil).found_eq_nil

/-- Behind what does not hold the literal, and a character that does not stand in it, a reader goes
on as if the text began there. -/
theorem substitute_append_cons (hR : R.AwaitsLiteral m w) (hx : ¬ includes m w x) (hw : w ≠ [])
    (hc : ∀ a ∈ w, ¬ m.agree a c) (write : α → Text) (u : Text) :
    R.substitute write (x ++ c :: u) = x ++ c :: R.substitute write u := by
  have hbars : Bars m w (c :: u) := bars_cons (fun a ha => hc a (List.mem_of_mem_tail ha)) u
  rw [(hR.passes hx hbars).substitute_append,
    substitute_cons_of_none (hR _ (after?_cons_of_disagree hw hc u))]

/-! ## Where nothing is found -/

theorem passes_of_found_eq_nil (h : R.found x = []) : R.Passes x [] := by
  induction x with
  | nil =>
    intro t ht hne
    exact absurd (List.suffix_nil.mp ht) hne
  | cons c x ih =>
    cases hread : R.read (c :: x) with
    | some result =>
      obtain ⟨a, rest⟩ := result
      simp [found, scan_of_read hread] at h
    | none =>
      have hx : R.found x = [] := by simpa [found, scan_of_none hread] using h
      intro t ht hne
      rcases List.suffix_cons_iff.mp ht with rfl | ht
      · rw [List.append_nil, hread]
      · exact ih hx t ht hne

/-- Where nothing is found nothing is changed. -/
theorem substitute_of_found_eq_nil (h : R.found x = []) (write : α → Text) :
    R.substitute write x = x := (passes_of_found_eq_nil h).substitute_eq write

/-! ## Where nothing that is read begins earlier -/

/-- Whatever is read in front of `u` ends there or before. -/
def StopsBefore (R : Reader α) (u : Text) : Prop :=
  ∀ t, t ≠ [] → R.read (t ++ u) = (R.read t).map fun (a, rest) => (a, rest ++ u)

/-- Whatever is read in front of `u` in a text with a property that is kept on the way through the
text ends there, as it does without `u`. -/
theorem scan_append_of {P : Text → Prop} (hread : ∀ t, P t → t ≠ [] →
      R.read (t ++ u) = (R.read t).map fun (a, rest) => (a, rest ++ u))
    (hrest : ∀ t a rest, P t → R.read t = some (a, rest) → P rest)
    (htail : ∀ c t, P (c :: t) → P t) (hx : P x) : R.scan (x ++ u) = R.scan x ++ R.scan u := by
  fun_induction R.scan x with
  | case1 => rfl
  | case2 d t a rest hfound ih =>
    have hfound' : R.read (d :: (t ++ u)) = some (a, rest ++ u) := by
      have h := hread (d :: t) hx (List.cons_ne_nil d t)
      rwa [hfound, Option.map_some] at h
    rw [List.cons_append, scan_of_read hfound', ih (hrest _ _ _ hx hfound)]
    rfl
  | case3 d t hnone ih =>
    have hnone' : R.read (d :: (t ++ u)) = none := by
      have h := hread (d :: t) hx (List.cons_ne_nil d t)
      rwa [hnone, Option.map_none] at h
    rw [List.cons_append, scan_of_none hnone', ih (htail d t hx)]
    rfl

theorem scan_append (hR : R.StopsBefore u) (x : Text) : R.scan (x ++ u) = R.scan x ++ R.scan u :=
  scan_append_of (P := fun _ => True) (fun t _ => hR t) (fun _ _ _ _ _ => trivial)
    (fun _ _ _ => trivial) trivial

theorem substitute_append (hR : R.StopsBefore u) (write : α → Text) (x : Text) :
    R.substitute write (x ++ u) = R.substitute write x ++ R.substitute write u := by
  simp [substitute, scan_append hR]

theorem stopsBefore_literal (hu : Bars m w u) : (literal m w).StopsBefore u := by
  intro t ht
  simp only [literal]
  split
  · rfl
  · rename_i hw
    cases hafter : after? m w t with
    | some rest => simp [after?_append hafter u]
    | none => simp [after?_append_eq_none hafter ht hu]

/-! ## Where the characters of a text come from -/

/-- What is behind something found is an end of the text. -/
def LeavesSuffix (R : Reader α) : Prop :=
  ∀ t a rest, R.read t = some (a, rest) → rest <:+ t

theorem leavesSuffix_literal (m : Letters) (w : Text) : (literal m w).LeavesSuffix := by
  intro t a rest h
  simp only [literal] at h
  split at h
  · simp at h
  · simp only [Option.map_eq_some_iff, Prod.mk.injEq] at h
    obtain ⟨r, hr, -, rfl⟩ := h
    exact suffix_of_after? hr

/-- A character of the result was in the text, unless it came with something that was found. -/
theorem mem_substitute (hR : R.LeavesSuffix) {write : α → Text} {new : Char → Prop}
    (hwrite : ∀ t a rest, R.read t = some (a, rest) → ∀ c ∈ write a, c ∈ t ∨ new c)
    (h : c ∈ R.substitute write x) : c ∈ x ∨ new c := by
  fun_induction R.scan x with
  | case1 => simp [substitute] at h
  | case2 d t a rest hread ih =>
    rw [substitute, scan_of_read hread, List.flatMap_cons, List.mem_append] at h
    rcases h with h | h
    · exact hwrite _ _ _ hread c h
    · exact (ih h).imp_left fun hmem => (hR _ _ _ hread).subset hmem
  | case3 d t hread ih =>
    rw [substitute, scan_of_none hread, List.flatMap_cons, List.mem_append] at h
    rcases h with h | h
    · exact .inl (List.mem_cons.mpr (.inl (List.mem_singleton.mp h)))
    · exact (ih h).imp_left (List.mem_cons_of_mem d)

/-! ## The texts between whatever is found -/

@[simp] theorem between_nil (R : Reader α) : R.between [] = ([], []) := by simp [between]

theorem between_of_read {t rest : Text} {a : α} (h : R.read (c :: t) = some (a, rest)) :
    R.between (c :: t) = ([], (R.between rest).1 :: (R.between rest).2) := by
  simp [between, scan_of_read h]

theorem between_of_none {t : Text} (h : R.read (c :: t) = none) :
    R.between (c :: t) = (c :: (R.between t).1, (R.between t).2) := by
  simp [between, scan_of_none h]

/-- Where the same text replaces whatever is found, it stands between the texts between. -/
theorem substitute_const (R : Reader α) (new t : Text) :
    R.substitute (fun _ => new) t = new.intercalate ((R.between t).1 :: (R.between t).2) := by
  rw [substitute, between]
  induction R.scan t with
  | nil => simp [List.intercalate]
  | cons piece pieces ih =>
    rw [List.flatMap_cons, ih, List.foldr_cons]
    cases piece with
    | plain c =>
      obtain ⟨first, others⟩ := pieces.foldr _ _
      cases others <;> simp [List.intercalate]
    | found a =>
      obtain ⟨first, others⟩ := pieces.foldr _ _
      simp [List.intercalate]

/-- The texts between whatever is found stand in the text, the first one at its head. -/
theorem between_isInfix (hR : R.LeavesSuffix) (x : Text) :
    (R.between x).1 <+: x ∧ ∀ t ∈ (R.between x).2, t <:+: x := by
  fun_induction R.scan x with
  | case1 => simp
  | case2 d t a rest hread ih =>
    rw [between_of_read hread]
    refine ⟨List.nil_prefix, fun s hs => ?_⟩
    have hrest := (hR _ _ _ hread).isInfix
    rcases List.mem_cons.mp hs with rfl | hs
    · exact ih.1.isInfix.trans hrest
    · exact (ih.2 s hs).trans hrest
  | case3 d t hread ih =>
    rw [between_of_none hread]
    exact ⟨List.cons_prefix_cons.mpr ⟨rfl, ih.1⟩,
      fun s hs => (ih.2 s hs).trans (List.suffix_cons d t).isInfix⟩

end Reader

namespace Text

variable {m : Letters} {w x u new : Text} {c : Char}

/-! ## Replacing a literal -/

theorem replace_of_not_includes (h : ¬ includes m w x) (new : Text) : replace m w new x = x :=
  Reader.substitute_of_not_includes (Reader.awaitsLiteral_literal m w) h _

theorem replace_append_of_bars (h : ¬ includes m w x) (hu : Bars m w u) (new : Text) :
    replace m w new (x ++ u) = x ++ replace m w new u :=
  ((Reader.awaitsLiteral_literal m w).passes h hu).substitute_append _

theorem replace_append (hu : Bars m w u) (new x : Text) :
    replace m w new (x ++ u) = replace m w new x ++ replace m w new u :=
  Reader.substitute_append (Reader.stopsBefore_literal hu) _ x

theorem replace_cons_of_none (h : after? m w (c :: x) = none) (new : Text) :
    replace m w new (c :: x) = c :: replace m w new x :=
  Reader.substitute_cons_of_none (Reader.awaitsLiteral_literal m w _ h) _

/-- On both sides of a character that does not stand in the literal it is replaced. -/
theorem replace_append_cons (hw : w ≠ []) (hc : ∀ a ∈ w, ¬ m.agree a c) (new x u : Text) :
    replace m w new (x ++ c :: u) = replace m w new x ++ c :: replace m w new u := by
  rw [replace_append (bars_cons (fun a ha => hc a (List.mem_of_mem_tail ha)) u),
    replace_cons_of_none (after?_cons_of_disagree hw hc u)]

/-- The literal at the head of a text is replaced. -/
theorem replace_of_after? (hw : w ≠ []) (h : after? m w x = some u) (new : Text) :
    replace m w new x = new ++ replace m w new u := by
  have hread : (Reader.literal m w).read x = some ((), u) := by simp [Reader.literal, hw, h]
  exact Reader.substitute_of_read hread _

/-- A single occurrence is replaced. -/
theorem replace_append_of_after? (hw : w ≠ []) (hx : ¬ includes m w x) (hu : Bars m w u)
    {rest : Text} (h : after? m w u = some rest) (hrest : ¬ includes m w rest) (new : Text) :
    replace m w new (x ++ u) = x ++ (new ++ rest) := by
  rw [replace_append_of_bars hx hu, replace_of_after? hw h, replace_of_not_includes hrest]

theorem mem_replace (h : c ∈ replace m w new x) : c ∈ x ∨ c ∈ new :=
  Reader.mem_substitute (Reader.leavesSuffix_literal m w) (fun _ _ _ _ _ hc => .inr hc) h

/-- The two sides of a cut stand in the text, around a copy of the literal. -/
theorem exists_of_cut {before rest : Text} (h : cut m w x = some (before, rest)) :
    ∃ t, x = before ++ t ∧ after? m w t = some rest := by
  induction x generalizing before with
  | nil =>
    simp only [cut] at h
    split at h
    · rename_i hw
      simp only [Option.some.injEq, Prod.mk.injEq] at h
      obtain ⟨rfl, rfl⟩ := h
      exact ⟨[], rfl, by rw [hw, after?]⟩
    · simp at h
  | cons c x ih =>
    simp only [cut] at h
    split at h
    · rename_i r hr
      simp only [Option.some.injEq, Prod.mk.injEq] at h
      obtain ⟨rfl, rfl⟩ := h
      exact ⟨c :: x, rfl, hr⟩
    · simp only [Option.map_eq_some_iff, Prod.mk.injEq, Prod.exists] at h
      obtain ⟨b, r, hcut, rfl, rfl⟩ := h
      obtain ⟨t, rfl, ht⟩ := ih hcut
      exact ⟨t, rfl, ht⟩

theorem mem_replaceFirst (h : c ∈ replaceFirst m w new x) : c ∈ x ∨ c ∈ new := by
  rw [replaceFirst] at h
  split at h
  · rename_i before rest hcut
    obtain ⟨t, rfl, ht⟩ := exists_of_cut hcut
    simp only [List.mem_append] at h ⊢
    rcases h with (h | h) | h
    · exact .inl (.inl h)
    · exact .inr h
    · exact .inl (.inr ((suffix_of_after? ht).subset h))
  · exact .inl h

/-- Behind a text without the literal the literal is cut out where it stands. -/
theorem cut_append_of_bars (h : ¬ includes m w x) (hu : Bars m w u) {rest : Text}
    (hrest : after? m w u = some rest) : cut m w (x ++ u) = some (x, rest) := by
  induction x with
  | nil =>
    cases u with
    | nil =>
      cases w with
      | nil =>
        rw [after?, Option.some.injEq] at hrest
        rw [← hrest]
        rfl
      | cons a w => simp [after?] at hrest
    | cons c u => simp [cut, hrest]
  | cons c x ih =>
    have hnone : after? m w (c :: (x ++ u)) = none :=
      after?_append_eq_none (after?_eq_none_of_not_includes h (List.suffix_refl _))
        (List.cons_ne_nil c x) hu
    have hx := not_includes_of_isInfix (List.suffix_cons c x).isInfix h
    rw [List.cons_append, cut, hnone, ih hx]
    rfl

/-- Before the first literal a text is copied, up to the literal that replaces it. -/
theorem replaceFirst_append_of_bars (h : ¬ includes m w x) (hu : Bars m w u) {rest : Text}
    (hrest : after? m w u = some rest) (new : Text) :
    replaceFirst m w new (x ++ u) = x ++ new ++ rest := by
  rw [replaceFirst, cut_append_of_bars h hu hrest]

/-- Where a literal is cut out of a text does not depend on what follows the text. -/
theorem cut_append {before rest : Text} (h : cut m w x = some (before, rest)) (u : Text) :
    cut m w (x ++ u) = some (before, rest ++ u) := by
  induction x generalizing before with
  | nil =>
    simp only [cut] at h
    split at h
    · rename_i hw
      simp only [Option.some.injEq, Prod.mk.injEq] at h
      obtain ⟨rfl, rfl⟩ := h
      cases u <;> simp [cut, hw, after?]
    · simp at h
  | cons c x ih =>
    simp only [cut] at h
    rw [List.cons_append, cut]
    split at h
    · rename_i r hr
      simp only [Option.some.injEq, Prod.mk.injEq] at h
      obtain ⟨rfl, rfl⟩ := h
      rw [← List.cons_append, after?_append hr u]
    · rename_i hnone
      simp only [Option.map_eq_some_iff, Prod.mk.injEq, Prod.exists] at h
      obtain ⟨b, r, hcut, rfl, rfl⟩ := h
      have hlen := length_cut hcut
      -- the literal stands behind `c`, so that the text is no proper beginning of it
      have hnone' : after? m w (c :: (x ++ u)) = none := by
        obtain hnone' | ⟨v, -, hne, hlen', -⟩ := after?_append_of_none hnone u
        · exact hnone'
        · have := List.length_pos_iff.mpr hne
          simp only [List.length_cons] at hlen'
          omega
      rw [hnone', ih hcut]
      rfl

end Text

end ScopedStyles
