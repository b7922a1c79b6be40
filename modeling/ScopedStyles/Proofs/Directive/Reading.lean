import ScopedStyles.Proofs.Sheet.Plain
import ScopedStyles.Proofs.Text.Scans

/-!
# Reading directives

All directives are read in the same way (`read_eq`): behind the keyword, the last declaration of the
block that `finish?` can go on from, and from there to the end of the directive.
-/

namespace ScopedStyles.Directive

open Text

/-- What a directive makes of the text before a content declaration, if it can go on from there, and
the text behind the directive. -/
def finish? : Directive → Content → Option ((Text → Text) × Text)
  | nextSelector, c => (afterNextSelector? c.rest).map fun rest => (fun _ => c.value ++ ['{'], rest)
  | rule, c | unscopedRule, c => (cut .exact ['}'] c.rest).map fun (inner, rest) =>
      (fun before => ruleText c (before ++ c.declaration ++ inner ++ ['}']), rest)

/-- The declaration at the head of a text, if a directive can go on from there. -/
def readDeclaration (d : Directive) (t : Text) : Option ((Text → Text) × Text) :=
  (content? t).bind d.finish?

theorem content?_eq_none {t : Text} (h : after? .anyCase "content:".toList t = none) :
    content? t = none := by
  rw [content?, h]
  rfl

theorem afterNextSelector?_close (t : Text) :
    afterNextSelector? ('}' :: t) = (cut .exact ['{'] t).map Prod.snd := by
  have hdrop : ('}' :: t).dropWhile (fun c => c == ';' || isBlank c) = '}' :: t :=
    List.dropWhile_cons_of_neg (by decide)
  have hafter : after? .exact ['}'] ('}' :: t) = some t := rfl
  rw [afterNextSelector?, hdrop, hafter, Option.map_eq_bind]
  simp only [Option.bind_eq_bind, Option.bind_some, Option.pure_def]
  rfl

section

variable {α β : Type} {read : Text → Option α} {m : Letters} {w x t : Text} {c : Char} {a : α}

/-- The place in a block does not depend on what is made of the text there. -/
theorem lastInBlock_map {read' : Text → Option β} {f : α → β}
    (h : ∀ t, read' t = (read t).map f) (t : Text) :
    lastInBlock read' t = (lastInBlock read t).map fun (before, a) => (before, f a) := by
  induction t with
  | nil => rfl
  | cons c t ih =>
    simp only [lastInBlock, ih, h]
    split
    · rfl
    · cases lastInBlock read t with
      | some found => rfl
      | none => cases read (c :: t) <;> rfl

/-- What is read last before the brace is found. -/
theorem lastInBlock_append_cons (hx : '}' ∉ x) (hc : c ≠ '}') (hread : read (c :: t) = some a)
    (ht : lastInBlock read t = none) : lastInBlock read (x ++ c :: t) = some (x, a) := by
  induction x with
  | nil =>
    rw [List.nil_append, lastInBlock, if_neg hc, ht, hread]
    rfl
  | cons d x ih =>
    rw [List.mem_cons, not_or] at hx
    rw [List.cons_append, lastInBlock, if_neg (Ne.symm hx.1), ih hx.2]

/-- Where a word does not begin before the brace, nothing that begins with it is found. -/
theorem lastInBlock_eq_none (hread : ∀ t, after? m w t = none → read t = none)
    (hx : ¬ includes m w x) (hc : ∀ a ∈ w, ¬ m.agree a '}') (u : Text) :
    lastInBlock read (x ++ '}' :: u) = none := by
  have hbars : Bars m w ('}' :: u) := bars_cons (fun a ha => hc a (List.mem_of_mem_tail ha)) u
  induction x with
  | nil => rfl
  | cons d x ih =>
    have hnone : read (d :: (x ++ '}' :: u)) = none :=
      hread _ (after?_append_eq_none (after?_eq_none_of_not_includes hx (List.suffix_refl _))
        (List.cons_ne_nil d x) hbars)
    have hx := not_includes_of_isInfix (List.suffix_cons d x).isInfix hx
    rw [List.cons_append, lastInBlock]
    split
    · rfl
    · rw [ih hx, hnone]
      rfl

end

theorem readDeclaration_nextSelector (t : Text) : readDeclaration nextSelector t =
    ((content? t).bind fun c => (afterNextSelector? c.rest).bind fun rest =>
      some (c.value, rest)).map fun (value, rest) => (fun _ => value ++ ['{'], rest) := by
  cases hc : content? t with
  | none => simp [readDeclaration, hc]
  | some c => cases hend : afterNextSelector? c.rest <;> simp [readDeclaration, finish?, hc, hend]

theorem readDeclaration_rule (d : Directive) (hd : d ≠ nextSelector) (t : Text) :
    d.readDeclaration t =
      ((content? t).bind fun c => (cut .exact ['}'] c.rest).bind fun (inner, rest) =>
        some (c, inner, rest)).map fun (c, inner, rest) =>
          (fun before => ruleText c (before ++ c.declaration ++ inner ++ ['}']), rest) := by
  cases hc : content? t with
  | none => simp [readDeclaration, hc]
  | some c =>
    cases d with
    | nextSelector => exact absurd rfl hd
    | rule | unscopedRule =>
      cases hend : cut .exact ['}'] c.rest <;> simp [readDeclaration, finish?, hc, hend]

/-- A directive is read from its keyword to the last declaration of its block, and on. -/
theorem read_eq (d : Directive) (t : Text) : d.read t =
    (after? .anyCase d.keyword t).bind fun block =>
      (lastInBlock d.readDeclaration block).map fun (before, new, rest) => (new before, rest) := by
  rw [read]
  cases after? .anyCase d.keyword t with
  | none => rfl
  | some block =>
    simp only [Option.bind_eq_bind, Option.bind_some, Option.pure_def]
    cases d with
    | nextSelector =>
      rw [lastInBlock_map readDeclaration_nextSelector]
      rw [Option.map_map, Option.map_eq_bind]
      rfl
    | rule =>
      rw [lastInBlock_map (readDeclaration_rule rule (by decide))]
      rw [Option.map_map, Option.map_eq_bind]
      rfl
    | unscopedRule =>
      rw [lastInBlock_map (readDeclaration_rule unscopedRule (by decide))]
      rw [Option.map_map, Option.map_eq_bind]
      rfl

theorem awaitsLiteral_keyword (d : Directive) : d.reader.AwaitsLiteral .anyCase d.keyword := by
  intro t ht
  simp [reader, read, ht]

/-! ## Blanks behind a text -/

section

variable {w : Text}

/-- Blanks are no value, and behind a value they do not belong to it. -/
theorem quoted?_append_of_blanks (hw : ∀ c ∈ w, isBlank c) {t : Text} (ht : t ≠ []) :
    quoted? (t ++ w) = (quoted? t).map fun (value, rest) => (value, rest ++ w) := by
  obtain ⟨c, t, rfl⟩ := List.exists_cons_of_ne_nil ht
  by_cases hsingle : c = '\''
  · subst hsingle
    exact cut_singleton_append_eq_map (not_mem_of_blanks hw (by decide)) t
  · by_cases hdouble : c = '"'
    · subst hdouble
      exact cut_singleton_append_eq_map (not_mem_of_blanks hw (by decide)) t
    · simp [quoted?, hsingle, hdouble]

theorem quoted?_trimStart_append_of_blanks (hw : ∀ c ∈ w, isBlank c) (t : Text) :
    quoted? (trimStart (t ++ w)) =
      (quoted? (trimStart t)).map fun (value, rest) => (value, rest ++ w) := by
  by_cases ht : trimStart t = []
  · have hblanks : ∀ c ∈ t ++ w, isBlank c := by
      intro c hc
      exact (List.mem_append.mp hc).elim (List.dropWhile_eq_nil_iff.mp ht c) (hw c)
    have hnil : trimStart (t ++ w) = [] := List.dropWhile_eq_nil_iff.mpr hblanks
    rw [hnil, ht]
    rfl
  · rw [trimStart_append ht, quoted?_append_of_blanks hw ht]

theorem content?_append_of_blanks (hw : ∀ c ∈ w, isBlank c) (t : Text) :
    content? (t ++ w) = (content? t).map fun c => { c with rest := c.rest ++ w } := by
  rw [content?, content?, after?_append_of_blanks (by decide) (by decide) hw]
  cases hafter : after? .anyCase "content:".toList t with
  | none => rfl
  | some inner =>
    simp only [Option.map_some, Option.bind_eq_bind, Option.bind_some,
      quoted?_trimStart_append_of_blanks hw]
    cases quoted? (trimStart inner) with
    | none => rfl
    | some found =>
      obtain ⟨value, rest⟩ := found
      -- the declaration is what lies before the rest, and both texts grow by the blanks
      have hlen : (t ++ w).length - (rest ++ w).length = t.length - rest.length := by
        simp only [List.length_append]
        omega
      simp only [Option.map_some, Option.bind_some, Option.pure_def, hlen,
        List.take_append_of_le_length (Nat.sub_le _ _)]

theorem afterNextSelector?_append_of_blanks (hw : ∀ c ∈ w, isBlank c) (t : Text) :
    afterNextSelector? (t ++ w) = (afterNextSelector? t).map (· ++ w) := by
  have hend : ∀ c ∈ w, (c == ';' || isBlank c) = true := by
    intro c hc
    rw [hw c hc, Bool.or_true]
  unfold afterNextSelector?
  by_cases ht : (t.dropWhile fun c => c == ';' || isBlank c) = []
  · have hnil : ((t ++ w).dropWhile fun c => c == ';' || isBlank c) = [] := by
      rw [List.dropWhile_eq_nil_iff] at ht ⊢
      exact fun c hc => (List.mem_append.mp hc).elim (ht c) (hend c)
    rw [hnil, ht]
    rfl
  · have hdrop : ((t ++ w).dropWhile fun c => c == ';' || isBlank c) =
        (t.dropWhile fun c => c == ';' || isBlank c) ++ w := by
      simp [List.dropWhile_append, ht]
    rw [hdrop, after?_append_of_blanks (by decide) (by decide) hw]
    cases after? .exact ['}'] (t.dropWhile fun c => c == ';' || isBlank c) with
    | none => rfl
    | some rest =>
      simp only [Option.map_some, Option.bind_eq_bind, Option.bind_some,
        cut_singleton_append_eq_map (not_mem_of_blanks hw (by decide : ¬ isBlank '{'))]
      cases cut .exact ['{'] rest <;> rfl

theorem finish?_append_of_blanks (hw : ∀ c ∈ w, isBlank c) (d : Directive) (c : Content) :
    d.finish? { c with rest := c.rest ++ w } =
      (d.finish? c).map fun (new, rest) => (new, rest ++ w) := by
  cases d with
  | nextSelector =>
    rw [finish?, finish?, afterNextSelector?_append_of_blanks hw]
    cases afterNextSelector? c.rest <;> rfl
  | rule | unscopedRule =>
    rw [finish?, finish?, cut_singleton_append_eq_map (not_mem_of_blanks hw (by decide))]
    cases cut .exact ['}'] c.rest <;> rfl

theorem readDeclaration_append_of_blanks (hw : ∀ c ∈ w, isBlank c) (d : Directive) (t : Text) :
    d.readDeclaration (t ++ w) = (d.readDeclaration t).map fun (new, rest) => (new, rest ++ w) := by
  rw [readDeclaration, readDeclaration, content?_append_of_blanks hw]
  cases content? t with
  | none => rfl
  | some c => exact finish?_append_of_blanks hw d c

theorem readDeclaration_of_blanks (hw : ∀ c ∈ w, isBlank c) (d : Directive) :
    d.readDeclaration w = none := by
  have h := d.readDeclaration_append_of_blanks hw []
  rwa [List.nil_append] at h

theorem lastInBlock_append_of_blanks (hw : ∀ c ∈ w, isBlank c) (d : Directive) (t : Text) :
    lastInBlock d.readDeclaration (t ++ w) =
      (lastInBlock d.readDeclaration t).map
        fun (before, new, rest) => (before, new, rest ++ w) := by
  induction t with
  | nil =>
    show lastInBlock d.readDeclaration w = none
    induction w with
    | nil => rfl
    | cons c w ih =>
      have hrest := ih (List.forall_mem_cons.mp hw).2
      have hclose : c ≠ '}' := by
        rintro rfl
        exact absurd (hw _ List.mem_cons_self) (by decide)
      rw [lastInBlock, if_neg hclose, hrest, readDeclaration_of_blanks hw]
      rfl
  | cons c t ih =>
    have hread := d.readDeclaration_append_of_blanks hw (c :: t)
    rw [List.cons_append] at hread ⊢
    simp only [lastInBlock, ih, hread]
    split
    · rfl
    · cases lastInBlock d.readDeclaration t with
      | some found => rfl
      | none => cases d.readDeclaration (c :: t) <;> rfl

/-- Blanks belong to no directive before them. -/
theorem stopsBefore_of_blanks (hw : ∀ c ∈ w, isBlank c) (d : Directive) :
    d.reader.StopsBefore w := by
  intro t _
  show d.read (t ++ w) = (d.read t).map _
  have hletters : ∀ a ∈ d.keyword, ¬ isBlank a ∧ ¬ isBlank (foldCase a) := by
    cases d <;> decide
  rw [read_eq, read_eq, after?_append_of_blanks d.keyword_ne_nil hletters hw]
  cases after? .anyCase d.keyword t with
  | none => rfl
  | some block =>
    simp only [Option.map_some, Option.bind_some, lastInBlock_append_of_blanks hw]
    cases lastInBlock d.readDeclaration block <;> rfl

theorem found_of_blanks (hw : ∀ c ∈ w, isBlank c) (d : Directive) : d.reader.found w = [] := by
  refine found_of_not_includes ?_ d
  have hdivides : ∀ c ∈ w, Divides [(.anyCase, stem)] c :=
    fun c hc => divides_of_isBlank (by decide) (hw c hc)
  have hlacks := (lacks_append_of_divides hdivides []).mpr (by decide)
  rw [List.append_nil] at hlacks
  exact lacks_singleton.mp hlacks

theorem substitute_append_of_blanks (hw : ∀ c ∈ w, isBlank c) (d : Directive)
    (write : Text → Text) (t : Text) :
    d.reader.substitute write (t ++ w) = d.reader.substitute write t ++ w := by
  rw [Reader.substitute_append (d.stopsBefore_of_blanks hw),
    Reader.substitute_of_found_eq_nil (d.found_of_blanks hw)]

/-- Blanks behind a stylesheet stay behind it. -/
theorem insert_append_of_blanks (hw : ∀ c ∈ w, isBlank c) (t : Text) :
    insert (t ++ w) = insert t ++ w := by
  rw [insert, insert, substitute_append_of_blanks hw, substitute_append_of_blanks hw]

theorem extractUnscoped_append_of_blanks (hw : ∀ c ∈ w, isBlank c) (t : Text) :
    extractUnscoped (t ++ w) = ((extractUnscoped t).1 ++ w, (extractUnscoped t).2) := by
  rw [extractUnscoped, extractUnscoped, substitute_append_of_blanks hw,
    Reader.found_append (stopsBefore_of_blanks hw _), found_of_blanks hw, List.append_nil]

end

end ScopedStyles.Directive
