import ScopedStyles.Proofs.Host.Blocks
import ScopedStyles.Proofs.Text.Trim

/-!
# Closed selectors

A use of a marker takes an argument only if its parenthesis closes, and the parenthesis may close
anywhere further on in a stylesheet. In a closed text it closes where it was opened: then the text
is normalized by itself in front of a comma or an opening brace, however often it names the host
(`IsClosed.normalize_append_cons`).
-/

namespace ScopedStyles.Host

open Text

variable {nested : Bool} {word t u a rest : Text} {c : Char}

/-! ## Parentheses that close -/

/-- Wherever a parenthesis opens behind `word`, it closes in the text. -/
def Closes (word t : Text) : Prop :=
  ∀ u ∈ t.tails, ∀ rest ∈ after? .anyCase word u,
    rest.head? = some '(' → argument? false rest.tail ≠ none

instance (word t : Text) : Decidable (Closes word t) :=
  inferInstanceAs (Decidable (∀ _ ∈ _, _))

/-- In both passes over the text the parentheses behind the markers close. In the second one this is
not so of `:host(.a, .b):host-context(.c, .d)`: with each argument of the first name goes only what
follows it up to a comma. -/
def IsClosed (t : Text) : Prop :=
  Closes marker (mark t) ∧
    Closes contextMarker (hostReader.substitute (Use.expand anchored) (mark t))

instance (t : Text) : Decidable (IsClosed t) := inferInstanceAs (Decidable (_ ∧ _))

theorem Closes.of_suffix (h : Closes word t) (hu : u <:+ t) : Closes word u :=
  fun v hv => h v ((List.mem_tails _ _).mpr (((List.mem_tails _ _).mp hv).trans hu))

/-- What stands behind an argument does not matter to it. -/
theorem argument?_append_of_some (h : argument? nested t = some (a, rest)) (u : Text) :
    argument? nested (t ++ u) = some (a, rest ++ u) := by
  induction t generalizing nested a with
  | nil => cases h
  | cons d t ih =>
    have hcons : ∀ {nested' : Bool}, (argument? nested' t).map (Prod.map (d :: ·) id) =
        some (a, rest) → (argument? nested' (t ++ u)).map (Prod.map (d :: ·) id) =
          some (a, rest ++ u) := by
      intro nested' h
      obtain ⟨⟨b, r⟩, hr, heq⟩ := Option.map_eq_some_iff.mp h
      obtain ⟨rfl, rfl⟩ := Prod.mk.inj heq
      rw [ih hr, Option.map_some]
      rfl
    by_cases hopen : d = '('
    · subst hopen
      cases nested with
      | true => cases h
      | false => exact hcons h
    · by_cases hclose : d = ')'
      · subst hclose
        cases nested with
        | true => exact hcons h
        | false =>
          obtain ⟨rfl, rfl⟩ := Prod.mk.inj (Option.some.inj h)
          rfl
      · rw [argument?_cons_plain hopen hclose] at h
        rw [List.cons_append, argument?_cons_plain hopen hclose]
        exact hcons h

/-- In a closed text a use ends as if nothing followed. -/
theorem Closes.use?_append_cons (h : Closes word t) (hword : word ≠ [])
    (hletters : ∀ b ∈ word, ¬ Letters.anyCase.agree b c) (hc : ¬ inSelector c) (u : Text) :
    use? word (t ++ c :: u) = (use? word t).map fun (use, rest) => (use, rest ++ c :: u) := by
  refine Host.use?_append_cons hword hletters hc fun v hv => ?_
  have hcloses : argument? false v ≠ none := h t (by simp) ('(' :: v) hv rfl
  obtain ⟨⟨a, rest⟩, hread⟩ := Option.ne_none_iff_exists'.mp hcloses
  rw [argument?_append_of_some hread, hread, Option.map_some]

/-! ## Normalizing -/

theorem splitArgument_suffix (t : Text) : (splitArgument t).2 <:+ t := by
  unfold splitArgument
  split
  · split
    · rename_i t a rest h
      obtain ⟨rfl, -⟩ := count_of_argument? h
      exact ⟨'(' :: (a ++ [')']), by simp⟩
    · exact List.suffix_refl _
  · exact List.suffix_refl _

/-- A use stands in the text in front of what is left of it. -/
theorem infix_of_use? {use : Use} (h : use? word t = some (use, rest)) :
    (∀ a ∈ use.argument, a <:+: t) ∧ use.tail <:+: t ∧ rest <:+ t := by
  simp only [use?, Option.map_eq_some_iff, Prod.mk.injEq] at h
  obtain ⟨behind, hafter, rfl, rfl⟩ := h
  have hbehind := suffix_of_after? hafter
  have hsplit := (splitArgument_suffix behind).trans hbehind
  refine ⟨fun a ha => ?_, (List.takeWhile_prefix _).isInfix.trans hsplit.isInfix,
    (List.dropWhile_suffix _).trans hsplit⟩
  unfold splitArgument at ha
  split at ha
  · rename_i u
    split at ha
    · rename_i b r hr
      obtain rfl := Option.some.inj ha
      obtain ⟨rfl, -⟩ := count_of_argument? hr
      refine List.IsInfix.trans ?_ hbehind.isInfix
      exact ⟨['('], ')' :: r, by simp⟩
    · cases ha
  · cases ha

section

variable {R : Reader Use}

theorem leavesSuffix_of_read (hR : R.read = use? word) : R.LeavesSuffix :=
  fun t use rest h => (infix_of_use? (hR ▸ h : use? word t = some (use, rest))).2.2

/-- A text in which what opens behind `word` closes is read by itself. -/
theorem Closes.substitute_append_cons (h : Closes word t) (hR : R.read = use? word)
    (hword : word ≠ []) (hletters : ∀ b ∈ word, ¬ Letters.anyCase.agree b c)
    (hc : ¬ inSelector c) (write : Use → Text) (u : Text) :
    R.substitute write (t ++ c :: u) = R.substitute write t ++ c :: R.substitute write u := by
  have hscan : R.scan (t ++ c :: u) = R.scan t ++ R.scan (c :: u) := by
    refine Reader.scan_append_of (fun s hs _ => ?_)
      (fun s _ _ hs hread => hs.of_suffix (leavesSuffix_of_read hR _ _ _ hread))
      (fun d s hs => hs.of_suffix (List.suffix_cons d s)) h
    rw [hR]
    exact hs.use?_append_cons hword hletters hc u
  have hnone : R.read (c :: u) = none := by
    rw [hR, use?, after?_cons_of_disagree hword hletters u, Option.map_none]
  rw [← Reader.substitute_cons_of_none hnone, Reader.substitute, hscan, List.flatMap_append]
  rfl

/-- What is written for the uses in a text consists of its characters, and of those that are
written beside the arguments and the rest of the selector. -/
theorem mem_substitute_expand (hR : R.read = use? word) {alternative : Text → Text → Text}
    {new : Char → Prop} (hcomma : new ',') (hanchor : ∀ d ∈ anchor, new d)
    (halternative : ∀ s tail, ∀ d ∈ alternative s tail, d ∈ s ∨ d ∈ tail ∨ new d)
    (h : c ∈ R.substitute (Use.expand alternative) t) : c ∈ t ∨ new c := by
  refine Reader.mem_substitute (leavesSuffix_of_read hR) (fun u use rest hread d hd => ?_) h
  obtain ⟨hargument, htail, -⟩ := infix_of_use? (hR ▸ hread : use? word u = some (use, rest))
  unfold Use.expand at hd
  split at hd
  · rename_i a ha
    rcases mem_intercalate hd with hd | ⟨p, hp, hd⟩
    · exact .inr (List.mem_singleton.mp hd ▸ hcomma)
    · obtain ⟨s, hs, rfl⟩ := List.mem_map.mp hp
      rcases halternative _ _ d hd with hd | hd | hd
      · have hstands := (trim_isInfix s).trans (infix_of_mem_split hs)
        exact .inl ((hstands.trans (hargument a ha)).subset hd)
      · exact .inl (htail.subset hd)
      · exact .inr hd
  · rcases List.mem_append.mp hd with hd | hd
    · exact .inr (hanchor d hd)
    · exact .inl (htail.subset hd)

end

/-- A closed text is normalized by itself in front of what ends a selector. -/
theorem IsClosed.normalize_append_cons (h : IsClosed t) (hc : ¬ inSelector c) (u : Text) :
    normalize (t ++ c :: u) = normalize t ++ c :: normalize u := by
  have hwords := divides_of_not_inSelector hc
  have hmarker := (hwords (.anyCase, marker) (by decide)).2
  have hcontext := (hwords (.anyCase, contextMarker) (by decide)).2
  rw [normalize, mark_append_cons hwords,
    h.1.substitute_append_cons rfl (by decide) hmarker hc,
    h.2.substitute_append_cons rfl (by decide) hcontext hc,
    flattenCombinators_append_cons fun w hw => hwords w (List.mem_append_right _ hw), normalize,
    normalize]

/-- The characters that stand in a text only when it is normalized. -/
def added : Text := ", ".toList ++ anchor ++ contextMarker

theorem mem_dropMarker {s : Text} (h : c ∈ dropMarker s) : c ∈ s := by
  unfold dropMarker at h
  split at h
  · rename_i before rest hcut
    obtain ⟨v, rfl, hv⟩ := exists_of_cut hcut
    have hrest := suffix_of_after? hv
    rcases List.mem_append.mp h with h | h
    · exact List.mem_append_left v h
    · refine List.mem_append_right before (hrest.subset ?_)
      cases hsuffix : after? .anyCase anchorSuffix rest with
      | none => simpa [hsuffix] using h
      | some r =>
        rw [hsuffix] at h
        exact (suffix_of_after? hsuffix).subset h
  · exact h

/-- A normalized text consists of characters of the text and of those that are added. -/
theorem mem_normalize (h : c ∈ normalize t) : c ∈ t ∨ c ∈ added := by
  have hadded : (∀ d ∈ anchor, d ∈ added) ∧ (∀ d ∈ ", ".toList, d ∈ added) ∧
      (∀ d ∈ marker, d ∈ added) ∧ ∀ d ∈ contextMarker, d ∈ added := by decide +kernel
  obtain ⟨hanchor, hcomma, hmarker, hcontext⟩ := hadded
  have hanchored : ∀ s tail, ∀ d ∈ anchored s tail, d ∈ s ∨ d ∈ tail ∨ d ∈ added := by
    intro s tail d hd
    simp only [anchored, List.mem_append] at hd
    rcases hd with (hd | hd) | hd
    · exact .inr (.inr (hanchor d hd))
    · exact .inl (mem_dropMarker hd)
    · exact .inr (.inl hd)
  have hwithin : ∀ s tail, ∀ d ∈ anchoredWithin s tail, d ∈ s ∨ d ∈ tail ∨ d ∈ added := by
    intro s tail d hd
    unfold anchoredWithin at hd
    split at hd
    · exact hanchored s tail d hd
    · have hspace := hcomma ' ' (by decide)
      simp only [List.mem_append, List.mem_singleton] at hd
      grind
  rcases mem_flattenCombinators h with h | rfl
  · rcases mem_substitute_expand rfl (hcomma ',' (by decide)) hanchor hwithin h with h | h
    · rcases mem_substitute_expand rfl (hcomma ',' (by decide)) hanchor hanchored h with h | h
      · rcases mem_replace h with h | h
        · exact (mem_replace h).imp_right (hcontext c)
        · exact .inr (hmarker c h)
      · exact .inr h
    · exact .inr h
  · exact .inr (hcomma ' ' (by decide))

end ScopedStyles.Host
