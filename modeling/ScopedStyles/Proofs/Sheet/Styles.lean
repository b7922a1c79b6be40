import ScopedStyles.Proofs.Host.Words
import ScopedStyles.Proofs.Sheet.Scope
import ScopedStyles.Proofs.Text.Trim

/-!
# Stylesheets of style rules

Most of a stylesheet is style rules, some of them under conditions. `Styles` is such a stylesheet,
for any way to write its selectors, and what is done to a stylesheet is done to its selectors: they
are normalized one by one (`IsNormalizedBy.normalize_text`) and scoped one by one
(`IsWritten.rules_text`).
-/

namespace ScopedStyles

open Text

/-! ## Braces -/

/-- A text without braces closes what it opens. -/
theorem balanced_of_forall_ne {t : Text} (h : ∀ c ∈ t, c ≠ '{' ∧ c ≠ '}') : Balanced t := by
  have hopen : ∀ p : Text, p <+: t → p.count '{' = 0 ∧ p.count '}' = 0 := by
    intro p hp
    constructor
    · exact List.count_eq_zero.mpr fun hc => (h _ (hp.subset hc)).1 rfl
    · exact List.count_eq_zero.mpr fun hc => (h _ (hp.subset hc)).2 rfl
  refine ⟨fun p hp => ?_, ?_⟩
  · rw [(hopen p hp).2]
    omega
  · rw [(hopen t (List.prefix_refl t)).1, (hopen t (List.prefix_refl t)).2]

theorem isRun_of_blanks {b : Text} (hb : ∀ c ∈ b, isBlank c) : IsRun b := by
  intro c hc
  refine ⟨?_, ?_, ?_⟩ <;> rintro rfl <;> exact absurd (hb _ hc) (by decide)

/-- A text that is not blank begins, behind its blanks, with a character that is none. -/
theorem HasInk.exists_trimStart {p : Text} (h : HasInk p) :
    ∃ c t, trimStart p = c :: t ∧ ¬ isBlank c := by
  obtain ⟨c, t, hct⟩ := List.exists_cons_of_ne_nil h.trimStart_ne_nil
  have hhead := List.head?_dropWhile_not isBlank p
  rw [← trimStart, hct] at hhead
  exact ⟨c, t, hct, by simpa using hhead⟩

theorem opensLevel_iff {p : Text} : OpensLevel p ↔
    "@media".toList <+: trimStart p ∨ "@supports".toList <+: trimStart p := by
  have hbegins : ∀ {w : Text} {d : Char}, ¬ isBlank d →
      ((w ++ [d]) <+: trim p ↔ (w ++ [d]) <+: trimStart p) := by
    intro w d hd
    refine ⟨fun h => h.trans (trimEnd_isPrefix _), ?_⟩
    rintro ⟨u, hu⟩
    rw [trim, ← hu, List.append_assoc, List.singleton_append, trimEnd_append_cons hd]
    exact ⟨trimEnd u, by simp⟩
  have hmedia := @hbegins "@medi".toList 'a' (by decide)
  have hsupports := @hbegins "@support".toList 's' (by decide)
  exact or_congr hmedia hsupports

/-- A condition is one whatever its combinators are written like. -/
theorem OpensLevel.flattenCombinators {p : Text} (h : OpensLevel p) :
    OpensLevel (Host.flattenCombinators p) := by
  have hkeyword : ∀ {w}, (∀ v ∈ Host.piercing, Shuts v.1 v.2 w) → '@' :: w <+: trimStart p →
      '@' :: w <+: trimStart (Host.flattenCombinators p) := by
    rintro w hshuts ⟨u, hu⟩
    have hblanks : ∀ d ∈ p.takeWhile isBlank, isBlank d := fun d hd => List.mem_takeWhile_imp hd
    have hsplit : p = p.takeWhile isBlank ++ '@' :: (w ++ u) := by
      rw [← List.cons_append, hu, trimStart, List.takeWhile_append_dropWhile]
    have hplain := (Host.isPlain_iff.mp (Host.isPlain_of_blanks hblanks)).2
    rw [hsplit, Host.flattenCombinators_append_cons (by decide),
      Host.flattenCombinators_of_lacks hplain, Host.flattenCombinators_append_of_shuts hshuts,
      trimStart_append_of_blanks hblanks, trimStart_cons (by decide)]
    exact List.prefix_append ('@' :: w) _
  rw [opensLevel_iff] at h ⊢
  exact h.imp (hkeyword (by decide)) (hkeyword (by decide))

theorem OpensLevel.hasInk {p : Text} (h : OpensLevel p) : HasInk p := by
  have hat : '@' ∈ trim p := h.elim (fun h => h.subset (by decide)) (fun h => h.subset (by decide))
  exact ⟨'@', (trim_isInfix p).subset hat, by decide⟩

namespace Scope

/-! ## Scoping rules one by one -/

/-- The blanks before a prelude stay there. -/
theorem prelude_append_of_blanks (s : Scope) {b p : Text} (hb : ∀ c ∈ b, isBlank c)
    (hink : HasInk p) : s.prelude (b ++ p) = b ++ s.prelude p := by
  have hstart := trimStart_append_of_blanks hb p
  have htrim := trim_append_left_of_blanks hb p
  have hink' : HasInk (b ++ p) := by
    obtain ⟨c, hc, hblank⟩ := hink
    exact ⟨c, List.mem_append_right b hc, hblank⟩
  have hend : blanksAtEnd (b ++ p) = blanksAtEnd p := by
    rw [← hink'.blanksAtEnd_trimStart, hstart, hink.blanksAtEnd_trimStart]
  have hiff : IsDirective (b ++ p) ↔ IsDirective p := by rw [IsDirective, IsDirective, htrim]
  rw [prelude, prelude, htrim, hend, List.takeWhile_append_of_pos hb]
  by_cases hdirective : IsDirective p
  · rw [if_pos hdirective, if_pos (hiff.mpr hdirective)]
  · rw [if_neg hdirective, if_neg (mt hiff.mp hdirective), List.append_assoc, List.append_assoc,
      List.append_assoc]

/-- The blanks before a rule stay there. -/
theorem rules_append_of_blanks (s : Scope) {b p t : Text} {c : Char} (hb : ∀ c ∈ b, isBlank c)
    (hp : IsRun p) (hink : HasInk p) (hc : ¬ Rule.inPrelude c) :
    s.rules (b ++ (p ++ c :: t)) = b ++ s.rules (p ++ c :: t) := by
  have hprelude := s.prelude_append_of_blanks hb hink
  have hrun : IsRun (b ++ p) := by
    intro d hd
    rcases List.mem_append.mp hd with hd | hd
    · exact isRun_of_blanks hb d hd
    · exact hp d hd
  have hink' : HasInk (b ++ p) := by
    obtain ⟨d, hd, hblank⟩ := hink
    exact ⟨d, List.mem_append_right b hd, hblank⟩
  have hlevel : OpensLevel (b ++ p) ↔ OpensLevel p := by
    rw [OpensLevel, OpensLevel, trim_append_left_of_blanks hb]
  rw [← List.append_assoc]
  by_cases hsemicolon : c = ';'
  · subst hsemicolon
    rw [s.rules_semicolon hrun hink', s.rules_semicolon hp hink, hprelude, List.append_assoc]
  · by_cases hclose : c = '}'
    · subst hclose
      rw [s.rules_close hrun, s.rules_close hp, List.append_assoc]
    · obtain rfl : c = '{' := by simpa [Rule.inPrelude, hsemicolon, hclose] using hc
      rw [← Rule.body_append_splitEnd t, s.rules_open hrun hink' (Rule.closes_body t),
        s.rules_open hp hink (Rule.closes_body t), hprelude, List.append_assoc]
      simp only [hlevel]

end Scope

/-- Only blanks are left of a text, or a rule begins it. -/
def BeginsRule (t : Text) : Prop :=
  (∀ c ∈ t, isBlank c) ∨ ∃ p c u, t = p ++ c :: u ∧ IsRun p ∧ HasInk p ∧ ¬ Rule.inPrelude c

namespace Scope

/-- A block is scoped by itself, whatever rules follow. -/
theorem rules_block_append (s : Scope) {p body t : Text} (hp : IsRun p) (hink : HasInk p)
    (hbody : Balanced body) (ht : BeginsRule t) :
    s.rules (p ++ '{' :: (body ++ '}' :: t)) =
      s.prelude p ++
        '{' :: ((if OpensLevel p then s.rules body else body) ++ '}' :: s.rules t) := by
  have hopen : ∀ blanks u : Text, Closes body ('}' :: blanks) u →
      s.rules (p ++ '{' :: (body ++ '}' :: (blanks ++ u))) =
        s.prelude p ++ '{' :: ((if OpensLevel p then s.rules body else body) ++
          '}' :: (blanks ++ s.rules u)) := fun blanks u hcloses => s.rules_open hp hink hcloses
  -- blanks behind a block belong to it, so they are taken off the next prelude and put back
  rcases ht with hblank | ⟨q, c, u, rfl, hq, hqink, hc⟩
  · have hclosed := hopen t [] (.brace hbody hblank (by simp))
    rw [List.append_nil, s.rules_nil, List.append_nil] at hclosed
    rw [hclosed, s.rules_run (isRun_of_blanks hblank)]
  · have hsplit : q ++ c :: u = q.takeWhile isBlank ++ (trimStart q ++ c :: u) := by
      rw [← List.append_assoc, trimStart, List.takeWhile_append_dropWhile]
    have hblanks : ∀ d ∈ q.takeWhile isBlank, isBlank d := fun d hd => List.mem_takeWhile_imp hd
    have hrun : IsRun (trimStart q) := fun d hd => hq d ((trimStart_suffix q).subset hd)
    obtain ⟨d, v, hv, hd⟩ := hqink.exists_trimStart
    have hmem : d ∈ trimStart q := by rw [hv]; exact List.mem_cons_self
    have hhead : ∀ e ∈ (trimStart q ++ c :: u).head?, ¬ isBlank e ∧ e ≠ ';' := by
      intro e he
      rw [hv, List.cons_append, List.head?_cons, Option.mem_some_iff] at he
      exact he ▸ ⟨hd, (hrun d hmem).1⟩
    rw [hsplit, hopen _ _ (.brace hbody hblanks hhead),
      s.rules_append_of_blanks hblanks hrun ⟨d, hmem, hd⟩ hc]

end Scope

/-! ## Braces of a stylesheet -/

/-- What stands behind a balanced text closes what it would close by itself. -/
theorem staysOpen_append {depth : Nat} {x t : Text} (hx : Balanced x) (ht : StaysOpen depth t) :
    StaysOpen depth (x ++ t) := by
  intro p hp
  obtain ⟨rest, hrest⟩ := hp
  -- a prefix of the whole ends in the balanced text or behind it
  rcases List.append_eq_append_iff.mp hrest with ⟨q, rfl, -⟩ | ⟨q, rfl, hq⟩
  · have := hx.1 p (List.prefix_append p q)
    omega
  · have := ht q (hq ▸ List.prefix_append q rest)
    have := hx.2
    simp only [List.count_append]
    omega

theorem Balanced.append {x t : Text} (hx : Balanced x) (ht : Balanced t) : Balanced (x ++ t) := by
  refine ⟨staysOpen_append hx ht.1, ?_⟩
  rw [List.count_append, List.count_append, hx.2, ht.2]

/-- Braces around a balanced text balance each other. -/
theorem Balanced.block {x t : Text} (hx : Balanced x) (ht : Balanced t) :
    Balanced ('{' :: (x ++ '}' :: t)) := by
  constructor
  · rw [staysOpen_cons_open]
    exact staysOpen_append hx (staysOpen_cons_close.mpr ⟨by omega, ht.1⟩)
  · have := hx.2
    have := ht.2
    simp only [List.count_cons, List.count_append, beq_iff_eq]
    simp
    omega

/-- A stylesheet of style rules, at its top level and under conditions. A selector is an `α`. -/
inductive Styles (α : Type) where
  /-- The blanks behind the last rule. -/
  | blank (blanks : Text)
  /-- A style rule. -/
  | rule (selector : α) (declarations : Text) (rest : Styles α)
  /-- Rules under a condition. -/
  | group (condition : Text) (body rest : Styles α)
  deriving Repr

namespace Styles

variable {α : Type} {write : α → Text}

/-- The stylesheet, with its selectors written by `write`. -/
def text (write : α → Text) : Styles α → Text
  | blank blanks => blanks
  | rule a declarations rest => write a ++ '{' :: (declarations ++ '}' :: rest.text write)
  | group condition body rest => condition ++ '{' :: (body.text write ++ '}' :: rest.text write)

/-- Something holds of all rules, by their selectors and declarations, and something of all
conditions. -/
def All (onRule : α → Text → Prop) (onCondition : Text → Prop) : Styles α → Prop
  | blank blanks => ∀ c ∈ blanks, isBlank c
  | rule a declarations rest => onRule a declarations ∧ rest.All onRule onCondition
  | group condition body rest =>
    onCondition condition ∧ body.All onRule onCondition ∧ rest.All onRule onCondition

instance All.decidable (onRule : α → Text → Prop) (onCondition : Text → Prop)
    [∀ a declarations, Decidable (onRule a declarations)] [DecidablePred onCondition] :
    (styles : Styles α) → Decidable (styles.All onRule onCondition)
  | blank _ => inferInstanceAs (Decidable (∀ _ ∈ _, _))
  | rule _ _ rest =>
    have := All.decidable onRule onCondition rest
    inferInstanceAs (Decidable (_ ∧ _))
  | group _ body rest =>
    have := All.decidable onRule onCondition body
    have := All.decidable onRule onCondition rest
    inferInstanceAs (Decidable (_ ∧ _ ∧ _))

theorem All.imp {onRule onRule' : α → Text → Prop} {onCondition onCondition' : Text → Prop}
    {styles : Styles α} (h : styles.All onRule onCondition)
    (hrule : ∀ a declarations, onRule a declarations → onRule' a declarations)
    (hcondition : ∀ condition, onCondition condition → onCondition' condition) :
    styles.All onRule' onCondition' := by
  induction styles with
  | blank blanks => exact h
  | rule a declarations rest ih => exact ⟨hrule a declarations h.1, ih h.2⟩
  | group condition body rest ihbody ih => exact ⟨hcondition condition h.1, ihbody h.2.1, ih h.2.2⟩

/-- The stylesheet with all but its selectors written differently. -/
def map (f : Text → Text) : Styles α → Styles α
  | blank blanks => blank blanks
  | rule a declarations rest => rule a (f declarations) (rest.map f)
  | group condition body rest => group (f condition) (body.map f) (rest.map f)

theorem All.map {onRule : α → Text → Prop} {onCondition : Text → Prop} {f : Text → Text}
    {styles : Styles α}
    (h : styles.All (fun a declarations => onRule a (f declarations))
      fun condition => onCondition (f condition)) : (styles.map f).All onRule onCondition := by
  induction styles with
  | blank blanks => exact h
  | rule a declarations rest ih => exact ⟨h.1, ih h.2⟩
  | group condition body rest ihbody ih => exact ⟨h.1, ihbody h.2.1, ih h.2.2⟩

/-- What is written can be read again: selectors and conditions are what they seem to be, and
declarations have no braces. -/
def IsWritten (write : α → Text) : Styles α → Prop :=
  All (fun a declarations => (IsRun (write a) ∧ HasInk (write a) ∧ ¬ OpensLevel (write a)) ∧
      ∀ c ∈ declarations, c ≠ '{' ∧ c ≠ '}')
    (fun condition => IsRun condition ∧ OpensLevel condition)

/-- To normalize the stylesheet is to write its selectors differently: the host is named nowhere
else. -/
def IsNormalizedBy (write write' : α → Text) : Styles α → Prop :=
  All (fun a declarations =>
      (∀ t, Host.normalize (write a ++ '{' :: t) = write' a ++ '{' :: Host.normalize t) ∧
        Lacks Host.names declarations)
    (Lacks Host.names)

/-! ## Scoping -/

theorem IsWritten.balanced {styles : Styles α} (h : styles.IsWritten write) :
    Balanced (styles.text write) := by
  have hrun : ∀ {p : Text}, IsRun p → Balanced p :=
    fun hp => balanced_of_forall_ne fun c hc => (hp c hc).2
  induction styles with
  | blank blanks => exact hrun (isRun_of_blanks h)
  | rule a declarations rest ih =>
    obtain ⟨⟨⟨hp, -, -⟩, hdeclarations⟩, hrest⟩ := h
    exact (hrun hp).append ((balanced_of_forall_ne hdeclarations).block (ih hrest))
  | group condition body rest ihbody ih =>
    obtain ⟨⟨hp, -⟩, hbody, hrest⟩ := h
    exact (hrun hp).append ((ihbody hbody).block (ih hrest))

theorem IsWritten.beginsRule {styles : Styles α} (h : styles.IsWritten write) :
    BeginsRule (styles.text write) := by
  cases styles with
  | blank blanks => exact .inl h
  | rule a declarations rest => exact .inr ⟨_, '{', _, rfl, h.1.1.1, h.1.1.2.1, by decide⟩
  | group condition body rest => exact .inr ⟨_, '{', _, rfl, h.1.1, h.1.2.hasInk, by decide⟩

/-- Selectors are scoped one by one, and nothing else is. -/
theorem IsWritten.rules_text {styles : Styles α} (h : styles.IsWritten write) (s : Scope) :
    s.rules (styles.text write) = styles.text (s.prelude ∘ write) := by
  induction styles with
  | blank blanks => exact s.rules_run (isRun_of_blanks h)
  | rule a declarations rest ih =>
    obtain ⟨⟨⟨hrun, hink, hlevel⟩, hdeclarations⟩, hrest⟩ := h
    rw [text, s.rules_block_append hrun hink (balanced_of_forall_ne hdeclarations)
      (IsWritten.beginsRule hrest), if_neg hlevel, ih hrest]
    rfl
  | group condition body rest ihbody ih =>
    obtain ⟨⟨hrun, hlevel⟩, hbody, hrest⟩ := h
    rw [text, s.rules_block_append hrun hlevel.hasInk (IsWritten.balanced hbody)
      (IsWritten.beginsRule hrest), if_pos hlevel,
      s.prelude_of_isDirective hlevel.isDirective, ihbody hbody, ih hrest, text]

/-! ## Normalizing -/

/-- Selectors are normalized one by one; of all else only the combinators are written
differently. -/
theorem IsNormalizedBy.normalize_append {write' : α → Text} {styles : Styles α}
    (h : styles.IsNormalizedBy write write') (t : Text) :
    Host.normalize (styles.text write ++ t) =
      (styles.map Host.flattenCombinators).text write' ++ Host.normalize t := by
  have hcons : ∀ {c}, Divides Host.words c → ∀ t,
      Host.normalize (c :: t) = c :: Host.normalize t := by
    intro c hc t
    have hnil : Lacks Host.names [] := by decide
    have hnothing : Host.flattenCombinators [] = [] :=
      Host.flattenCombinators_of_lacks (by decide)
    have hnormalize := Host.normalize_append_cons hnil hc t
    rwa [hnothing, List.nil_append, List.nil_append] at hnormalize
  have hopen : Divides Host.words '{' := by decide
  have hclose : Divides Host.words '}' := by decide
  induction styles generalizing t with
  | blank blanks =>
    have hblanks : ∀ c ∈ blanks, isBlank c := h
    rw [map, text, text]
    clear h
    induction blanks with
    | nil => rfl
    | cons c blanks ih =>
      rw [List.forall_mem_cons] at hblanks
      rw [List.cons_append, hcons (Host.divides_of_isBlank hblanks.1), ih hblanks.2,
        List.cons_append]
  | rule a declarations rest ih =>
    obtain ⟨⟨hselector, hdeclarations⟩, hrest⟩ := h
    simp only [map, text, List.append_assoc, List.cons_append]
    rw [hselector, Host.normalize_append_cons hdeclarations hclose, ih hrest]
  | group condition body rest ihbody ih =>
    obtain ⟨hcondition, hbody, hrest⟩ := h
    simp only [map, text, List.append_assoc, List.cons_append]
    rw [Host.normalize_append_cons hcondition hopen, ihbody hbody, hcons hclose, ih hrest]

theorem IsNormalizedBy.normalize_text {write' : α → Text} {styles : Styles α}
    (h : styles.IsNormalizedBy write write') :
    Host.normalize (styles.text write) = (styles.map Host.flattenCombinators).text write' := by
  have hnil : Host.normalize [] = [] := Host.normalize_of_isPlain (by decide)
  have happend := h.normalize_append []
  rwa [hnil, List.append_nil, List.append_nil] at happend

/-! ## Words -/

/-- A word that has no braces and no blanks occurs in one of the parts. -/
theorem lacks_text {words : List (Letters × Text)} (hopen : Divides words '{')
    (hclose : Divides words '}') (hblank : ∀ c, isBlank c → Divides words c) {styles : Styles α}
    (h : styles.All (fun a declarations => Lacks words (write a) ∧ Lacks words declarations)
      (Lacks words)) : Lacks words (styles.text write) := by
  induction styles with
  | blank blanks =>
    have hlacks := (lacks_append_of_divides (fun c hc => hblank c (h c hc)) []).mpr hopen.lacks_nil
    rwa [List.append_nil] at hlacks
  | rule a declarations rest ih =>
    obtain ⟨⟨ha, hdeclarations⟩, hrest⟩ := h
    exact (lacks_append_cons hopen _ _).mpr
      ⟨ha, (lacks_append_cons hclose _ _).mpr ⟨hdeclarations, ih hrest⟩⟩
  | group condition body rest ihbody ih =>
    obtain ⟨hcondition, hbody, hrest⟩ := h
    exact (lacks_append_cons hopen _ _).mpr
      ⟨hcondition, (lacks_append_cons hclose _ _).mpr ⟨ihbody hbody, ih hrest⟩⟩

end Styles

end ScopedStyles
