import ScopedStyles.Proofs.Sheet.Plain
import ScopedStyles.Proofs.Text.Scans

/-!
# A source map comment at the end

Behind a text whose comments are all closed a comment is read as if the text began there
(`AllClosed.scans`), and a source map comment at the end of a text is the one that the text is asked
for (`sourceMap_append`).
-/

namespace ScopedStyles

open Text

namespace Text

/-- The last end of a text that satisfies `p` is found. -/
theorem lastSuffix?_append {p : Text → Bool} {t : Text} (ht : p t) (hne : t ≠ [])
    (hlast : ∀ s, s <:+ t → s ≠ t → ¬ p s) (x : Text) : lastSuffix? p (x ++ t) = some t := by
  induction x with
  | nil =>
    obtain ⟨c, s, rfl⟩ := List.exists_cons_of_ne_nil hne
    have hnone : lastSuffix? p s = none := by
      cases hfound : lastSuffix? p s with
      | none => rfl
      | some found =>
        obtain ⟨hsuffix, hp⟩ := suffix_and_of_lastSuffix? hfound
        have hlen := hsuffix.length_le
        refine absurd hp (hlast found (hsuffix.trans (List.suffix_cons c s)) ?_)
        rintro rfl
        simp only [List.length_cons] at hlen
        omega
    rw [List.nil_append, lastSuffix?, hnone]
    exact if_pos ht
  | cons c x ih => rw [List.cons_append, lastSuffix?, ih]

end Text

namespace Comment

/-! ## Texts that close their comments -/

/-- No text between the comments begins a comment. -/
def AllClosed (t : Text) : Prop :=
  ∀ p ∈ (reader.between t).1 :: (reader.between t).2, ¬ includes .exact opening p

instance (t : Text) : Decidable (AllClosed t) := inferInstanceAs (Decidable (∀ _ ∈ _, _))

variable {x u : Text}

/-- Comments that are closed are read in the same way whatever follows. -/
theorem AllClosed.scans (h : AllClosed x) (hu : Bars .exact opening u) :
    reader.Scans x u (reader.scan x) := by
  unfold Reader.Scans
  fun_induction Reader.scan reader x with
  | case1 => rfl
  | case2 c t body rest hread ih =>
    have hread' : reader.read (c :: (t ++ u)) = some (body, rest ++ u) := by
      simp only [reader, read, Option.bind_eq_some_iff] at hread ⊢
      obtain ⟨inner, hinner, hcut⟩ := hread
      exact ⟨inner ++ u, after?_append hinner u, cut_append hcut u⟩
    have hrest : AllClosed rest := by
      intro p hp
      refine h p ?_
      rw [Reader.between_of_read hread]
      exact List.mem_cons_of_mem _ hp
    rw [List.cons_append, Reader.scan_of_read hread', ih hrest]
    rfl
  | case3 c t hread ih =>
    rw [AllClosed, Reader.between_of_none hread, List.forall_mem_cons] at h
    obtain ⟨hfirst, hothers⟩ := h
    have hbehind := not_includes_of_isInfix (List.suffix_cons c _).isInfix hfirst
    have hrest : AllClosed t := List.forall_mem_cons.mpr ⟨hbehind, hothers⟩
    have hnone : after? .exact opening (c :: (t ++ u)) = none := by
      cases hafter : after? .exact opening (c :: (t ++ u)) with
      | none => rfl
      | some inner =>
        have hslash : c :: (t ++ u) = '/' :: '*' :: inner := after?_exact.mp hafter
        obtain ⟨rfl, hstar⟩ := List.cons.inj hslash
        cases t with
        | nil =>
          rw [List.nil_append] at hstar
          have hbars := hu ['*'] ⟨['/'], rfl⟩ (by decide) (by decide)
          rw [hstar] at hbars
          cases hbars
        | cons d t =>
          obtain ⟨rfl, -⟩ := List.cons.inj hstar
          -- the star is no comment either, so that it stands between comments with the slash
          have hread : reader.read ('*' :: t) = none := awaitsLiteral_reader _ rfl
          rw [Reader.between_of_none hread] at hfirst
          exact absurd (includes_iff.mpr ⟨[], _, rfl, rfl⟩) hfirst
    rw [List.cons_append, Reader.scan_of_none (awaitsLiteral_reader _ hnone), ih hrest]
    rfl

theorem AllClosed.strip_append (h : AllClosed x) (hu : Bars .exact opening u) :
    strip (x ++ u) = strip x ++ strip u := by
  rw [strip, strip, strip, Reader.substitute_eq_flatMap, h.scans hu, List.flatMap_append]
  rfl

/-- A comment without its end inside is read to its end. -/
theorem read_text_append {body : Text} (h : ¬ includes .exact closing body) (u : Text) :
    reader.read (text body ++ u) = some (body, u) := by
  have hopen : after? .exact opening (text body ++ u) = some (body ++ (closing ++ u)) := by
    rw [text, List.append_assoc, List.append_assoc, after?_append_self]
  have hrepels : Repels .exact closing closing := by decide
  simp only [reader, read, hopen, Option.bind_some]
  exact cut_append_of_bars h (hrepels.bars u) (after?_append_self _ _ _)

/-! ## The source map comment -/

/-- The comment that says where the source map is. -/
def sourceMapOf (url : Text) : Text := text ("# sourceMappingURL=".toList ++ url)

variable {url : Text}

theorem isSourceMap_sourceMapOf (h : url ≠ []) : isSourceMap (sourceMapOf url) := by
  have hhead : afterSourceMapHead? (sourceMapOf url) = some (url ++ closing) := rfl
  have hlen := List.length_pos_iff.mpr h
  simp [isSourceMap, hhead, hlen]

/-- A source map comment does not begin inside another one. -/
theorem not_isSourceMap_of_suffix (h : ¬ includes .exact opening url) {t : Text}
    (ht : t <:+ sourceMapOf url) (hne : t ≠ sourceMapOf url) : ¬ isSourceMap t := by
  have hslash : ∀ c ∈ "*# sourceMappingURL=".toList, ¬ Letters.exact.agree '/' c := by decide
  have hbody : ¬ includes .exact opening ("*# sourceMappingURL=".toList ++ url) :=
    (includes_append_of_disagree hslash url).symm ▸ h
  intro hmap
  obtain ⟨inner, hinner, -⟩ := exists_after?_of_isSourceMap hmap
  obtain ⟨p, hp⟩ : t <:+ "*# sourceMappingURL=".toList ++ url ++ closing := by
    rcases List.suffix_cons_iff.mp ht with heq | ht
    · exact absurd heq hne
    · exact ht
  obtain ⟨s, hs, rfl⟩ | ⟨s, -, hs⟩ := List.append_eq_append_iff.mp hp
  · have hnone := after?_eq_none_of_not_includes hbody ⟨p, hs.symm⟩
    by_cases hnil : s = []
    · subst hnil
      have hclosing : after? .exact opening closing = none := by decide
      rw [List.nil_append, hclosing] at hinner
      cases hinner
    · obtain habsent | ⟨v, -, hv, hlen, -⟩ := after?_append_of_none hnone closing
      · rw [habsent] at hinner
        cases hinner
      · -- only the slash at the end of the url can begin a comment with the star behind it
        have hlen : s.length = 1 := by
          have := List.length_pos_iff.mpr hnil
          have := List.length_pos_iff.mpr hv
          have htwo : opening.length = 2 := rfl
          omega
        obtain ⟨d, rfl⟩ := List.length_eq_one_iff.mp hlen
        have hslash : d :: closing = '/' :: '*' :: inner := after?_exact.mp hinner
        obtain ⟨rfl, -⟩ := List.cons.inj hslash
        exact absurd hmap (by decide)
  · have hshort : ∀ t ∈ closing.tails, after? .exact opening t = none := by decide
    rw [hshort t ((List.mem_tails t closing).mpr ⟨s, hs.symm⟩)] at hinner
    cases hinner

/-- The source map comment at the end of a text is found, in front of blanks. -/
theorem sourceMap_append (hne : url ≠ []) (hurl : ¬ includes .exact opening url) {blanks : Text}
    (hblanks : ∀ c ∈ blanks, isBlank c) (x : Text) :
    sourceMap (x ++ (sourceMapOf url ++ blanks)) = sourceMapOf url := by
  have hend : ∃ y, sourceMapOf url = y ++ ['/'] :=
    ⟨opening ++ ("# sourceMappingURL=".toList ++ url) ++ ['*'], by
      simp [sourceMapOf, text, closing]⟩
  have htrim : trimEnd (x ++ (sourceMapOf url ++ blanks)) = x ++ sourceMapOf url := by
    obtain ⟨y, hy⟩ := hend
    rw [← List.append_assoc, trimEnd_append_of_blanks hblanks, hy, ← List.append_assoc,
      trimEnd_append_singleton (by decide)]
  have hnonempty : sourceMapOf url ≠ [] := List.cons_ne_nil _ _
  rw [sourceMap, htrim, lastSuffix?_append (isSourceMap_sourceMapOf hne) hnonempty
    fun t ht hne => not_isSourceMap_of_suffix hurl ht hne]
  rfl

end Comment

end ScopedStyles
