import ScopedStyles.Proofs.Selector.Traces
import ScopedStyles.Proofs.Text.Scans

/-!
# Selectors with several marks

A selector that names the host more than once has one anchor and a marker for every other name.
`Scope.Clears` says what has to stand between these marks for none of them to be seen in the end,
and `Scope.lacks_alternative_iff` that nothing less will do. In strict mode it is asked of each
compound selector that is scoped: it may hold any marks if it holds the anchor, and otherwise must
be more than its markers. In loose mode every mark is written as the scope.
-/

namespace ScopedStyles

open Text Host Selector

/-! ## Texts between marks -/

namespace Text

variable {words : List (Letters × Text)} {c : Char} {separator t : Text}

/-- Where joined pieces have a dividing character at the end of each separator, all but the last
piece are read together with what stands before that character. -/
theorem lacks_intercalate_concat (hc : Divides words c) (pieces : List Text) :
    Lacks words ((separator ++ [c]).intercalate pieces) ↔
      (∀ p ∈ pieces.dropLast, Lacks words (p ++ separator)) ∧
        ∀ p ∈ pieces.getLast?, Lacks words p := by
  induction pieces with
  | nil => simpa [List.intercalate] using hc.lacks_nil
  | cons p pieces ih =>
    cases pieces with
    | nil => simp
    | cons q pieces =>
      rw [List.intercalate_cons_cons, ← List.append_assoc, List.append_assoc _ [c],
        List.singleton_append, lacks_append_cons hc, ih, List.dropLast_cons_cons,
        List.forall_mem_cons, List.getLast?_cons_cons, and_assoc]

/-- Blanks that divide a text for the words do not matter at its ends. -/
theorem lacks_trim (hblank : ∀ c, isBlank c → Divides words c) :
    Lacks words (trim t) ↔ Lacks words t := by
  obtain ⟨b, b', hb, hb', ht⟩ := exists_blanks_of_trim t
  refine ⟨fun h => ?_, fun h => h.of_isInfix (trim_isInfix t)⟩
  rw [ht, lacks_append_of_divides fun c hc => hblank c (hb c hc)]
  exact lacks_append_right_of_divides (fun c hc => hblank c (hb' c hc)) h

end Text

namespace Host

variable {t : Text}

/-- The texts between the markers of `:host`. -/
def betweenMarkers (t : Text) : List Text :=
  ((Reader.literal .anyCase marker).between t).1 :: ((Reader.literal .anyCase marker).between t).2

/-- The texts between the marks of a text: its first anchor, and the markers of `:host`. -/
def betweenMarks (t : Text) : List Text :=
  match cut .exact anchor t with
  | some (before, rest) => betweenMarkers before ++ betweenMarkers rest
  | none => betweenMarkers t

theorem replace_marker (new t : Text) :
    replace .anyCase marker new t = new.intercalate (betweenMarkers t) :=
  Reader.substitute_const _ new t

theorem betweenMarkers_of_not_includes (h : ¬ includes .anyCase marker t) :
    betweenMarkers t = [t] := by
  have hpasses := ((Reader.awaitsLiteral_literal .anyCase marker).passes h bars_nil).between_append
  rw [List.append_nil, Reader.between_nil, List.append_nil] at hpasses
  rw [betweenMarkers, hpasses]

end Host

/-! ## Scoping in strict mode -/

namespace Scope

variable {s : Scope} {t y : Text}

/-- An attribute in the place of each marker keeps what stands between them apart. -/
theorem lacks_replace_marker {value : Text} (hvalue : Lacks traces value) (t : Text) :
    Lacks traces (replace .anyCase marker ('[' :: value ++ [']'] ++ [' ']) t) ↔
      ∀ p ∈ betweenMarkers t, Lacks traces p := by
  have hspace : Divides traces ' ' := by decide
  have happend : ∀ p, Lacks traces (p ++ ('[' :: value ++ [']'])) ↔ Lacks traces p := by
    intro p
    have h := @lacks_attribute p [] value hvalue
    rwa [List.append_nil, and_iff_left hspace.lacks_nil] at h
  rw [replace_marker, lacks_intercalate_concat hspace]
  simp only [happend]
  obtain h | ⟨pieces, p, h⟩ := List.eq_nil_or_concat (betweenMarkers t)
  · simp [h]
  · simp [h, or_imp, forall_and]

/-- The attribute in the place of the anchor does the same. -/
theorem lacks_writeHost (hs : s.IsTraceless) (hmode : s.mode = .strict)
    (h : includes .exact anchor t) :
    Lacks traces (s.writeHost t) ↔ ∀ p ∈ betweenMarks t, Lacks traces p := by
  obtain ⟨⟨before, rest⟩, hcut⟩ := Option.isSome_iff_exists.mp h
  have hhost : s.hostText = '[' :: s.host ++ [']'] := by rw [hostText, hmode]
  have hopen : ∀ a ∈ marker, ¬ Letters.anyCase.agree a '[' := by decide
  have hclose : ∀ a ∈ marker, ¬ Letters.anyCase.agree a ']' := by decide
  have hwrite : s.writeHost t =
      replace .anyCase marker (s.hostText ++ [' ']) before ++ (s.hostText ++
        replace .anyCase marker (s.hostText ++ [' ']) rest) := by
    have hwhole : before ++ s.hostText ++ rest = before ++ '[' :: (s.host ++ ']' :: rest) := by
      simp [hhost]
    rw [writeHost, replaceFirst, hcut]
    show replace .anyCase marker (s.hostText ++ [' ']) (before ++ s.hostText ++ rest) = _
    rw [hwhole, replace_append_cons (by decide) hopen, replace_append_cons (by decide) hclose,
      replace_of_not_includes (not_includes_marker hs.host)]
    simp [hhost]
  rw [hwrite, hhost, lacks_attribute hs.host, lacks_replace_marker hs.host,
    lacks_replace_marker hs.host, betweenMarks, hcut, List.forall_mem_append]

/-- A compound selector leaves no trace when it is scoped: no trace stands between its marks, or it
has no anchor, and what is left without its markers is something else. -/
def ClearsCompound (t : Text) : Prop :=
  if includes .exact anchor t then ∀ p ∈ betweenMarks t, Lacks traces p
  else trim t ≠ [] →
    replace .anyCase marker [] t ≠ [] ∧ Lacks traces (replace .anyCase marker [] t)

instance (t : Text) : Decidable (ClearsCompound t) :=
  inferInstanceAs (Decidable (@ite Prop _ _ _ _))

/-- Links that leave no trace. Those before the host element is `reached` are copied. -/
def ClearsLinks : (reached : Bool) → List (Text × Char) → Prop
  | _, [] => True
  | reached, (t, _) :: rest =>
    (if reached || anchor.isPrefixOf t then ClearsCompound (trim t) else Lacks traces t) ∧
      ClearsLinks (reached || anchor.isPrefixOf t || includes .exact anchor t) rest

instance decidableClearsLinks : (reached : Bool) → (links : List (Text × Char)) →
    Decidable (ClearsLinks reached links)
  | _, [] => isTrue trivial
  | reached, (t, _) :: rest =>
    have := decidableClearsLinks (reached || anchor.isPrefixOf t || includes .exact anchor t) rest
    inferInstanceAs (Decidable (_ ∧ _))

/-- A complex selector leaves no trace in strict mode. -/
def ClearsStrictly (t : Text) : Prop :=
  ClearsLinks (!includes .exact anchor t) (chain t).links ∧ ClearsCompound (chain t).last

instance (t : Text) : Decidable (ClearsStrictly t) := inferInstanceAs (Decidable (_ ∧ _))

/-- A compound selector that is only markers is written as it is. -/
theorem not_lacks_of_bare (hblank : trim t ≠ []) (hbare : replace .anyCase marker [] t = []) :
    ¬ Lacks traces (trim t) := by
  intro h
  have hlacks := (lacks_trim fun _ => divides_traces_of_isBlank).mp h
  rw [replace_of_not_includes (not_includes_marker hlacks)] at hbare
  subst hbare
  exact hblank rfl

theorem lacks_compound_iff (hs : s.IsTraceless) (hmode : s.mode = .strict) (t : Text) :
    Lacks traces (s.compound t) ↔ ClearsCompound t := by
  have hspace : Divides traces ' ' := by decide
  unfold ClearsCompound
  by_cases hblank : trim t = []
  · have hlacks : Lacks traces t :=
      (lacks_trim fun _ => divides_traces_of_isBlank).mp (hblank ▸ hspace.lacks_nil)
    have hanchor := not_includes_anchor (not_includes_marker hlacks)
    rw [compound, if_pos hblank, if_neg hanchor]
    exact iff_of_true hspace.lacks_nil fun hink => absurd hblank hink
  · rw [compound, if_neg hblank]
    split
    · rename_i hanchor
      exact lacks_writeHost hs hmode hanchor
    · split
      · rename_i hbare
        exact iff_of_false (not_lacks_of_bare hblank hbare) fun h => (h hblank).1 hbare
      · rename_i hne
        rw [lacks_insertAttribute hs]
        exact ⟨fun h _ => ⟨hne, h⟩, fun h => (h hblank).2⟩

theorem lacks_links (hs : s.IsTraceless) (hmode : s.mode = .strict)
    {chained : List (Text × Char)} (hchained : ∀ link ∈ chained, isCombinator link.2)
    (reached : Bool) :
    Lacks traces (s.links reached chained ++ y) ↔
      ClearsLinks reached chained ∧ Lacks traces y := by
  induction chained generalizing reached with
  | nil => simp [links, ClearsLinks]
  | cons link chained ih =>
    obtain ⟨t, c⟩ := link
    rw [List.forall_mem_cons] at hchained
    simp only [links, ClearsLinks]
    rw [List.append_assoc, List.append_assoc, lacks_link hchained.1, ih hchained.2, ← and_assoc]
    split
    · rw [lacks_compound_iff hs hmode]
    · rw [lacks_trim fun _ => divides_traces_of_isBlank]

theorem lacks_strictly_iff (hs : s.IsTraceless) (hmode : s.mode = .strict) (t : Text) :
    Lacks traces (s.strictly t) ↔ ClearsStrictly t := by
  rw [strictly, lacks_links hs hmode fun link h => ((infix_of_mem_links t).1 link h).2,
    lacks_compound_iff hs hmode, ClearsStrictly]

/-! ## Scoping in loose mode -/

/-- A complex selector leaves no trace in loose mode: none is made where the scope takes the place
of a marker, or of the anchor. -/
def ClearsLoosely (s : Scope) (t : Text) : Prop :=
  (∀ p ∈ (betweenMarkers (replaceFirst .exact anchor s.content t)).dropLast,
      Lacks traces (p ++ s.content)) ∧
    ∀ p ∈ (betweenMarkers (replaceFirst .exact anchor s.content t)).getLast?, Lacks traces p

instance (s : Scope) (t : Text) : Decidable (s.ClearsLoosely t) :=
  inferInstanceAs (Decidable (_ ∧ _))

theorem lacks_loosely_iff (hs : s.IsTraceless) (hmode : s.mode = .loose) (t : Text) :
    Lacks traces (s.loosely t) ↔ s.ClearsLoosely t := by
  have hspace : Divides traces ' ' := by decide
  have hhost : s.hostText = s.content := by rw [hostText, hmode]
  rw [loosely]
  split
  · rw [writeHost, hhost, replace_marker, lacks_intercalate_concat hspace, ClearsLoosely]
  · rename_i hmarker
    rw [ClearsLoosely, replaceFirst_of_not_includes (not_includes_anchor hmarker),
      betweenMarkers_of_not_includes hmarker, List.append_assoc, List.singleton_append,
      lacks_append_cons hspace, and_iff_right hs.content]
    simp

/-! ## Alternatives -/

/-- The part of a selector that is inside the component leaves no trace. -/
def ClearsOwn (s : Scope) (t : Text) : Prop :=
  if isScoped s.content t then Lacks traces t
  else if s.mode = .strict then ClearsStrictly t
  else s.ClearsLoosely t

instance (s : Scope) (t : Text) : Decidable (s.ClearsOwn t) :=
  inferInstanceAs (Decidable (@ite Prop _ _ _ (@ite Prop _ _ _ _)))

/-- An alternative leaves no trace when it is scoped, neither inside the component nor behind a deep
combinator. -/
def Clears (s : Scope) (t : Text) : Prop :=
  s.ClearsOwn (deepReader.between (trim t)).1 ∧
    ∀ u ∈ (deepReader.between (trim t)).2, Lacks traces u

instance (s : Scope) (t : Text) : Decidable (s.Clears t) := inferInstanceAs (Decidable (_ ∧ _))

/-- The alternatives that leave no trace are those whose marks are cleared. -/
theorem lacks_alternative_iff (hs : s.IsTraceless) (t : Text) :
    Lacks traces (s.alternative t) ↔ s.Clears t := by
  have hspace : Divides traces ' ' := by decide
  have hown : ∀ u, Lacks traces (s.shallow u) ↔ s.ClearsOwn u := by
    intro u
    unfold Scope.shallow ClearsOwn
    split
    · rfl
    · cases hmode : s.mode with
      | strict => exact lacks_strictly_iff hs hmode u
      | loose => exact lacks_loosely_iff hs hmode u
  rw [alternative, lacks_intercalate hspace, List.forall_mem_cons, hown, Clears]

/-- In strict mode a second name is dropped beside another selector only. -/
example :
    let s : Scope := { content := "c".toList, host := "h".toList }
    s.Clears (normalize ":host .a:host".toList) ∧ ¬ s.Clears (normalize ":host :host".toList) := by
  decide +kernel

/-- In loose mode the scope takes the place of both. -/
example : Scope.Clears { content := "c".toList, host := [], mode := .loose }
    (normalize ":host :host".toList) := by decide +kernel

end Scope

end ScopedStyles
