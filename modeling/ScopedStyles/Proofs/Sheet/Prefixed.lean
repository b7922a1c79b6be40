import ScopedStyles.Proofs.Selector.Keyword
import ScopedStyles.Proofs.Selector.Lines
import ScopedStyles.Proofs.Sheet.Attributes

/-!
# Prefixed preludes

In loose mode a scoped alternative begins with the scope and has no deep combinator left, so that it
is scoped already (`Scope.Keeps`). A scoped prelude is a prelude of the same kind, at the same place
between its blanks, and scoping leaves it as it is (`Scope.Stays`).
-/

namespace ScopedStyles

open Text Selector

theorem HasInk.isSolid_trim {a : Text} (h : HasInk a) : IsSolid (trim a) := by
  obtain ⟨c, u, hcu, hc⟩ := h.exists_trimStart
  have hend : trimEnd (c :: u) = c :: trimEnd u := trimEnd_append_cons hc [] u
  refine ⟨?_, fun d => not_isBlank_of_head?_trim, fun d => not_isBlank_of_getLast?_trimEnd⟩
  rw [trim, hcu, hend]
  exact List.cons_ne_nil c _

/-- What stands between blanks is found there again. -/
theorem Selector.IsSolid.blanks_append {x b b' : Text} (hx : IsSolid x)
    (hb : ∀ c ∈ b, isBlank c) (hb' : ∀ c ∈ b', isBlank c) :
    (b ++ (x ++ b')).takeWhile isBlank = b ∧ trim (b ++ (x ++ b')) = x ∧
      blanksAtEnd (b ++ (x ++ b')) = b' := by
  obtain ⟨c, u, rfl⟩ := List.exists_cons_of_ne_nil hx.ne_nil
  have hc : ¬ isBlank c := hx.head c rfl
  refine ⟨?_, ?_, ?_⟩
  · rw [List.takeWhile_append_of_pos hb, List.cons_append, List.takeWhile_cons_of_neg hc,
      List.append_nil]
  · rw [trim_append_left_of_blanks hb, trim_append_of_blanks hb', hx.trim_eq]
  · rw [← List.append_assoc, blanksAtEnd_append_of_blanks hb', blanksAtEnd_eq_nil,
      List.nil_append]
    rw [List.getLast?_append_of_ne_nil _ hx.ne_nil]
    exact hx.last

namespace Scope

variable {s : Scope} {a p t x : Text} {c : Char}

/-! ## Alternatives -/

/-- The scope is a word at which nothing is cut: it has no blanks, and no character or combinator
that ends an alternative, a prelude or the part inside the component. -/
@[mk_iff]
structure IsWord (s : Scope) : Prop where
  ne_nil : s.content ≠ []
  letters : ∀ c ∈ s.content, ¬ isBlank c ∧ c ∉ ",;\x7b\x7d@".toList
  deep : Lacks deep s.content

instance (s : Scope) : Decidable s.IsWord := decidable_of_iff' _ s.isWord_iff

/-- An alternative that says something: it is not blank, and no deep combinator ends it, blanks
aside. -/
def IsStated (a : Text) : Prop := HasInk a ∧ ∀ w ∈ deep, ¬ w.2 <:+ trim a

instance (a : Text) : Decidable (IsStated a) := inferInstanceAs (Decidable (_ ∧ _))

/-- An alternative that is scoped already, with no blanks around it and no deep combinator. -/
structure Keeps (s : Scope) (x : Text) : Prop where
  solid : IsSolid x
  deep : Lacks deep x
  begins : isScoped s.content x

theorem Keeps.alternative_eq (h : s.Keeps x) : s.alternative x = x := by
  rw [alternative, h.solid.trim_eq, between_of_lacks h.deep]
  simp [shallow, h.begins]

theorem IsWord.not_isScoped_nil (hs : s.IsWord) : ¬ isScoped s.content [] := by
  intro h
  obtain ⟨line, hmem, rest, hline, -⟩ := isScoped_iff.mp h
  rcases mem_fromLineStarts_iff.mp hmem with rfl | ⟨p, hp⟩
  · exact hs.ne_nil (List.append_eq_nil_iff.mp hline.symm).1
  · simp at hp

/-- The part inside the component, once it is scoped, begins with the scope. -/
theorem IsWord.begins_shallow (hs : s.IsWord) (hmode : s.mode = .loose)
    (hmarker : ¬ includes .anyCase Host.marker t) (hhead : ∀ c ∈ t.head?, ¬ isBlank c) :
    (s.shallow t ≠ [] ∧ ∀ c ∈ (s.shallow t).head?, ¬ isBlank c) ∧
      isScoped s.content (s.shallow t) := by
  rw [shallow_loose hmode hmarker]
  split
  · rename_i hscoped
    refine ⟨⟨?_, hhead⟩, hscoped⟩
    rintro rfl
    exact hs.not_isScoped_nil hscoped
  · obtain ⟨c, u, hcu⟩ := List.exists_cons_of_ne_nil hs.ne_nil
    refine ⟨⟨by simp, ?_⟩, (opens_append_cons (by decide) s.content t).isScoped⟩
    rw [hcu]
    rintro d ⟨rfl⟩
    exact (hs.letters c (hcu ▸ List.mem_cons_self)).1

theorem IsWord.lacks_shallow (hs : s.IsWord) (hmode : s.mode = .loose)
    (hmarker : ¬ includes .anyCase Host.marker t) (h : Lacks Selector.deep t) :
    Lacks Selector.deep (s.shallow t) := by
  have hspace : Divides Selector.deep ' ' := by decide
  rw [shallow_loose hmode hmarker]
  split
  · exact h
  · exact (lacks_append_cons hspace _ _).mpr ⟨hs.deep, h⟩

/-- A scoped alternative ends as the alternative does, behind its last deep combinator. -/
theorem last_alternative (hmode : s.mode = .loose) (ha : IsStated a)
    (hmarker : ¬ includes .anyCase Host.marker a) :
    ∀ c ∈ (s.alternative a).getLast?, ¬ isBlank c := by
  have hsolid := ha.1.isSolid_trim
  rcases exists_last_between (trim a) with hone | ⟨init, last, p, hothers, w, hw, htrim⟩
  · have hmarker : ¬ includes .anyCase Host.marker (trim a) :=
      not_includes_of_isInfix (trim_isInfix a) hmarker
    rw [alternative, hone]
    simp only [List.intercalate_singleton]
    rw [shallow_loose hmode hmarker]
    split
    · exact hsolid.last
    · rw [← List.singleton_append, ← List.append_assoc,
        List.getLast?_append_of_ne_nil _ hsolid.ne_nil]
      exact hsolid.last
  · have hlast : last ≠ [] := by
      rintro rfl
      exact ha.2 w hw ⟨p, by rw [htrim, List.append_nil]⟩
    obtain ⟨x, hx⟩ := exists_intercalate_append [' '] (s.shallow (innerPart a) :: init) last
    rw [alternative_eq_intercalate, outerParts, hothers, ← List.cons_append, hx,
      List.getLast?_append_of_ne_nil _ hlast]
    refine not_isBlank_of_suffix hsolid.last ⟨p ++ w.2, ?_⟩
    rw [htrim, List.append_assoc]

/-- In loose mode a scoped alternative is scoped already. -/
theorem IsWord.keeps_alternative (hs : s.IsWord) (hmode : s.mode = .loose) (ha : IsStated a)
    (hmarker : ¬ includes .anyCase Host.marker a) : s.Keeps (s.alternative a) := by
  have hspace : Divides Selector.deep ' ' := by decide
  obtain ⟨rest, hrest⟩ := innerPart_isPrefix_trim a
  obtain ⟨hinner, houter⟩ := lacks_between (trim a)
  obtain ⟨tail, htail, hspaced⟩ := s.exists_alternative_eq a
  have hhead : ∀ c ∈ (innerPart a).head?, ¬ isBlank c := by
    intro c hc
    refine ha.1.isSolid_trim.head c ?_
    rw [← hrest, List.head?_append, Option.mem_def.mp hc]
    rfl
  obtain ⟨⟨hne, hfirst⟩, hbegins⟩ := hs.begins_shallow hmode (not_includes_innerPart hmarker) hhead
  obtain ⟨d, u, hdu⟩ := List.exists_cons_of_ne_nil hne
  refine ⟨⟨?_, ?_, last_alternative hmode ha hmarker⟩, ?_, ?_⟩
  · rw [htail, hdu]
    exact List.cons_ne_nil d _
  · rw [htail, hdu]
    rw [hdu] at hfirst
    exact hfirst
  · rw [alternative_eq_intercalate, lacks_intercalate hspace]
    exact List.forall_mem_cons.mpr
      ⟨hs.lacks_shallow hmode (not_includes_innerPart hmarker) hinner, houter⟩
  · rw [htail]
    rcases hspaced with rfl | ⟨u, rfl⟩
    · rwa [List.append_nil]
    · exact isScoped_append_cons hbegins (by decide) u

/-- A scoped alternative begins with the scope, unless its part inside the component is scoped
already and begins it. -/
theorem prefix_alternative (hmode : s.mode = .loose)
    (hmarker : ¬ includes .anyCase Host.marker a) :
    s.content <+: s.alternative a ∨
      isScoped s.content (innerPart a) ∧ innerPart a <+: s.alternative a := by
  obtain ⟨tail, htail, -⟩ := s.exists_alternative_eq a
  rw [htail, shallow_loose hmode (not_includes_innerPart hmarker)]
  split
  · rename_i hscoped
    exact .inr ⟨hscoped, List.prefix_append _ tail⟩
  · exact .inl ⟨_, by rw [List.append_assoc]⟩

theorem mem_alternative_loose (hmode : s.mode = .loose)
    (hmarker : ¬ includes .anyCase Host.marker a) (h : c ∈ s.alternative a) :
    c ∈ a ∨ c ∈ s.content ∨ c = ' ' := by
  rw [alternative_eq_intercalate] at h
  rcases mem_intercalate h with hc | ⟨piece, hpiece, hc⟩
  · exact .inr (.inr (List.mem_singleton.mp hc))
  · rcases List.mem_cons.mp hpiece with rfl | hpiece
    · rw [shallow_loose hmode (not_includes_innerPart hmarker)] at hc
      split at hc
      · exact .inl ((innerPart_isInfix a).subset hc)
      · rcases List.mem_append.mp hc with hc | hc
        · exact .inr (.inl hc)
        · exact (List.mem_cons.mp hc).elim (fun hc => .inr (.inr hc))
            fun hc => .inl ((innerPart_isInfix a).subset hc)
    · exact .inl ((outerParts_isInfix hpiece).subset hc)

/-! ## Selector lists -/

theorem isSolid_intercalate {pieces : List Text} (hne : pieces ≠ [])
    (h : ∀ r ∈ pieces, IsSolid r) (separator : Text) : IsSolid (separator.intercalate pieces) := by
  induction pieces with
  | nil => exact absurd rfl hne
  | cons r pieces ih =>
    rw [List.forall_mem_cons] at h
    cases pieces with
    | nil =>
      rw [List.intercalate_singleton]
      exact h.1
    | cons q pieces =>
      rw [List.intercalate_cons_cons, List.append_assoc]
      exact h.1.append (ih (List.cons_ne_nil q pieces) h.2) separator

/-- The alternatives of a selector list that was written are those it was written from. -/
theorem selector_intercalate {pieces : List Text} (hne : pieces ≠ [])
    (h : ∀ r ∈ pieces, ',' ∉ r) (s : Scope) :
    s.selector (", ".toList.intercalate pieces) =
      ", ".toList.intercalate (pieces.map s.alternative) := by
  obtain ⟨r, rs, rfl⟩ := List.exists_cons_of_ne_nil hne
  have hspace : ∀ c ∈ [' '], isBlank c := by decide
  have hseparator : ", ".toList = ',' :: [' '] := rfl
  rw [List.forall_mem_cons] at h
  have hcomma : ∀ q ∈ r :: rs.map ([' '] ++ ·), ',' ∉ q := by
    refine List.forall_mem_cons.mpr ⟨h.1, List.forall_mem_map.mpr fun q hq => ?_⟩
    simpa using h.2 q hq
  have hpieces : (rs.map ([' '] ++ ·)).map s.alternative = rs.map s.alternative := by
    rw [List.map_map]
    exact List.map_congr_left fun q _ => alternative_congr (trim_append_left_of_blanks hspace q)
  conv => lhs; rw [selector, hseparator, intercalate_cons_separator,
    split_intercalate (List.cons_ne_nil _ _) hcomma]
  rw [List.map_cons, hpieces, List.map_cons, hseparator]

theorem IsWord.isRun_selector (hs : s.IsWord) (hmode : s.mode = .loose)
    (hmarker : ¬ includes .anyCase Host.marker p) (hrun : IsRun p) : IsRun (s.selector p) := by
  have hseparator : IsRun ", ".toList := by decide
  have hword : IsRun s.content := by
    intro c hc
    have hnot := (hs.letters c hc).2
    refine ⟨?_, ?_, ?_⟩ <;> rintro rfl <;> exact hnot (by decide)
  intro c hc
  rcases mem_intercalate hc with hc | ⟨r, hr, hc⟩
  · exact hseparator c hc
  · obtain ⟨a, ha, rfl⟩ := List.mem_map.mp hr
    have hmarker := not_includes_of_isInfix (infix_of_mem_split ha) hmarker
    rcases mem_alternative_loose hmode hmarker hc with hc | hc | rfl
    · exact hrun c ((infix_of_mem_split ha).subset hc)
    · exact hword c hc
    · decide

section Prelude

variable (hs : s.IsWord) (hmode : s.mode = .loose) (hmarker : ¬ includes .anyCase Host.marker p)
  (hstated : ∀ a ∈ split ',' p, IsStated a)

include hs hmode hmarker hstated

theorem IsWord.keeps_of_mem_selector :
    ∀ r ∈ (split ',' p).map s.alternative, s.Keeps r ∧ ',' ∉ r := by
  refine List.forall_mem_map.mpr fun a ha => ?_
  have hmarker := not_includes_of_isInfix (infix_of_mem_split ha) hmarker
  refine ⟨hs.keeps_alternative hmode (hstated a ha) hmarker, fun hc => ?_⟩
  rcases mem_alternative_loose hmode hmarker hc with hc | hc | hc
  · exact not_mem_of_mem_split ha hc
  · exact (hs.letters _ hc).2 (by decide)
  · exact absurd hc (by decide)

theorem IsWord.isSolid_selector : IsSolid (s.selector p) :=
  isSolid_intercalate (List.map_eq_nil_iff.not.mpr (split_ne_nil ',' p))
    (fun r hr => (hs.keeps_of_mem_selector hmode hmarker hstated r hr).1.solid) _

/-- In loose mode a scoped selector list is scoped already. -/
theorem IsWord.selector_selector : s.selector (s.selector p) = s.selector p := by
  have hkeeps := hs.keeps_of_mem_selector hmode hmarker hstated
  have hne : (split ',' p).map s.alternative ≠ [] :=
    List.map_eq_nil_iff.not.mpr (split_ne_nil ',' p)
  have hself : ((split ',' p).map s.alternative).map s.alternative =
      (split ',' p).map s.alternative := by
    conv => rhs; rw [← List.map_id ((split ',' p).map s.alternative)]
    exact List.map_congr_left fun r hr => (hkeeps r hr).1.alternative_eq
  show s.selector (", ".toList.intercalate ((split ',' p).map s.alternative)) = s.selector p
  rw [selector_intercalate hne fun r hr => (hkeeps r hr).2, hself, selector]

end Prelude

/-! ## Preludes -/

/-- A prelude that begins with an at-sign has it at the beginning of its first alternative. -/
theorem at_isPrefix_trim (ha : a <+: p) (hat : ['@'] <+: trim a) : ['@'] <+: trim p := by
  obtain ⟨r, rfl⟩ := ha
  obtain ⟨v, hv⟩ := hat
  obtain ⟨b, b', hb, -, hsplit⟩ := exists_blanks_of_trim a
  rw [hsplit, ← hv, List.append_assoc, trim_append_left_of_blanks hb]
  have hcons : ['@'] ++ v ++ b' ++ r = '@' :: (v ++ b' ++ r) := by simp
  rw [hcons, trim_cons (by decide)]
  exact ⟨_, rfl⟩

/-- `@page` is not cut by anything that cuts a prelude. -/
theorem page_isPrefix_innerPart {as : List Text} (hsplit : split ',' p = a :: as)
    (hpage : "@page".toList <+: trim p) : "@page".toList <+: innerPart a := by
  obtain ⟨u, hu⟩ := hpage
  obtain ⟨b, b', hb, -, hp⟩ := exists_blanks_of_trim p
  have hcomma : ',' ∉ b ++ "@page".toList := by
    rw [List.mem_append, not_or]
    exact ⟨not_mem_of_blanks hb (by decide), by decide⟩
  obtain ⟨piece, pieces, -, hpieces⟩ := split_append_left hcomma (u ++ b')
  have hwhole : p = b ++ "@page".toList ++ (u ++ b') := by rw [hp, ← hu]; simp
  rw [hwhole, hpieces] at hsplit
  obtain ⟨rfl, -⟩ := List.cons.inj hsplit
  refine isPrefix_innerPart (by decide) ?_
  rw [List.append_assoc, trim_append_left_of_blanks hb, trim_append_of_ink (by decide) (by decide)]
  exact List.prefix_append _ _

/-- A scoped selector list does not become that of an at-rule. -/
theorem IsWord.not_isDirective_selector (hs : s.IsWord) (hmode : s.mode = .loose)
    (hmarker : ¬ includes .anyCase Host.marker p) (hsolid : IsSolid (s.selector p))
    (h : ¬ IsDirective p) : ¬ IsDirective (s.selector p) := by
  rintro ⟨⟨v, hv⟩, hpage⟩
  rw [hsolid.trim_eq] at hv hpage
  obtain ⟨a, as, hsplit⟩ := List.exists_cons_of_ne_nil (split_ne_nil ',' p)
  have ha : a <+: p := (infix_of_split_eq_cons hsplit).1
  have hfirst : s.alternative a <+: s.selector p := by
    rw [selector, hsplit, List.map_cons]
    exact isPrefix_intercalate_cons _ _ _
  have hat : ∀ u, u <+: s.selector p → u ≠ [] → ['@'] <+: u := by
    intro u hu hne
    obtain ⟨c, u, rfl⟩ := List.exists_cons_of_ne_nil hne
    rw [← hv, List.singleton_append, List.cons_prefix_cons] at hu
    exact ⟨u, by rw [hu.1]; rfl⟩
  rcases prefix_alternative hmode (not_includes_of_isInfix ha.isInfix hmarker) with
    hcontent | ⟨hscoped, hinner⟩
  · have hmem : '@' ∈ s.content := (hat _ (hcontent.trans hfirst) hs.ne_nil).subset (by decide)
    exact (hs.letters _ hmem).2 (by decide)
  · have hne : innerPart a ≠ [] := by
      intro hnil
      rw [hnil] at hscoped
      exact hs.not_isScoped_nil hscoped
    have htrim : ['@'] <+: trim a :=
      (hat _ (hinner.trans hfirst) hne).trans (innerPart_isPrefix_trim a)
    have hpage' : "@page".toList <+: trim p :=
      by_contra fun hnot => h ⟨at_isPrefix_trim ha htrim, hnot⟩
    exact hpage ((page_isPrefix_innerPart hsplit hpage').trans (hinner.trans hfirst))

/-- The prelude, once it is scoped, is a prelude of the same kind, and scoping it again does not
change it. -/
structure Stays (s : Scope) (p : Text) : Prop where
  run : IsRun (s.prelude p)
  ink : HasInk (s.prelude p)
  level : OpensLevel (s.prelude p) ↔ OpensLevel p
  head : (∀ c ∈ p.head?, ¬ isBlank c) → ∀ c ∈ (s.prelude p).head?, ¬ isBlank c
  again : s.prelude (s.prelude p) = s.prelude p

theorem stays_of_isDirective (s : Scope) (hrun : IsRun p) (hink : HasInk p)
    (h : IsDirective p) : s.Stays p := by
  have hself : s.prelude p = p := s.prelude_of_isDirective h
  have hagain : s.prelude (s.prelude p) = s.prelude p := congrArg s.prelude hself
  refine ⟨?_, ?_, ?_, ?_, hagain⟩ <;> rw [hself]
  · exact hrun
  · exact hink
  · exact id

/-- In loose mode a prelude stays as it is once it is scoped. -/
theorem IsWord.stays (hs : s.IsWord) (hmode : s.mode = .loose)
    (hmarker : ¬ includes .anyCase Host.marker p) (hrun : IsRun p) (hink : HasInk p)
    (hstated : ¬ IsDirective p → ∀ a ∈ split ',' p, IsStated a) : s.Stays p := by
  by_cases hdirective : IsDirective p
  · exact s.stays_of_isDirective hrun hink hdirective
  have hstated := hstated hdirective
  have hsolid := hs.isSolid_selector hmode hmarker hstated
  have hbefore : ∀ c ∈ p.takeWhile isBlank, isBlank c := fun c hc => List.mem_takeWhile_imp hc
  have hbehind : ∀ c ∈ blanksAtEnd p, isBlank c := fun c => isBlank_of_mem_blanksAtEnd
  have hprelude : s.prelude p = p.takeWhile isBlank ++ (s.selector p ++ blanksAtEnd p) := by
    rw [prelude, if_neg hdirective, selector_trim, List.append_assoc]
  obtain ⟨htake, htrim, hend⟩ := hsolid.blanks_append hbefore hbehind
  have hnot : ¬ IsDirective (s.prelude p) := by
    have hselector := hs.not_isDirective_selector hmode hmarker hsolid hdirective
    rwa [IsDirective, hsolid.trim_eq, ← htrim, ← hprelude] at hselector
  obtain ⟨c, u, hcu⟩ := List.exists_cons_of_ne_nil hsolid.ne_nil
  have hc : ¬ isBlank c := hsolid.head c (by rw [hcu]; rfl)
  refine ⟨?_, ⟨c, by rw [hprelude, hcu]; simp, hc⟩, ?_, ?_, ?_⟩
  · rw [hprelude]
    exact List.forall_mem_append.mpr ⟨isRun_of_blanks hbefore,
      List.forall_mem_append.mpr ⟨hs.isRun_selector hmode hmarker hrun, isRun_of_blanks hbehind⟩⟩
  · exact iff_of_false (fun h => hnot h.isDirective) fun h => hdirective h.isDirective
  · intro hhead
    have hnil : p.takeWhile isBlank = [] := by
      cases p with
      | nil => rfl
      | cons d p => exact List.takeWhile_cons_of_neg (hhead d rfl)
    rw [hprelude, hnil, hcu]
    rintro d ⟨rfl⟩
    exact hc
  · rw [prelude, if_neg hnot, hprelude, htake, htrim, hend,
      hs.selector_selector hmode hmarker hstated, List.append_assoc]

end Scope

end ScopedStyles
