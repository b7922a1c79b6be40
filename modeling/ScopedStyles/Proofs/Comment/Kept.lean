import Mathlib.Data.List.Chain
import ScopedStyles.Proofs.Comment.Trailing

/-!
# Comments that are kept

A stylesheet can lose its comments in two passes, of which the first one keeps those that say where
the source is. The second pass finds just these, and both together do what one pass does, as long as
taking a comment out leaves no new one: a slash and a star that it keeps apart would make one
(`Comment.IsSetOff`).
-/

namespace ScopedStyles

open Text

namespace Text

variable {m : Letters} {w x : Text}

/-- A literal does not occur before the place where it is cut out. -/
theorem not_includes_of_cut {before rest : Text} (h : cut m w x = some (before, rest))
    (hw : w ≠ []) : ¬ includes m w before := by
  induction x generalizing before with
  | nil => simp [cut, hw] at h
  | cons c x ih =>
    simp only [cut] at h
    split at h
    · simp only [Option.some.injEq, Prod.mk.injEq] at h
      obtain ⟨rfl, rfl⟩ := h
      simp [includes, cut, hw]
    · rename_i hnone
      simp only [Option.map_eq_some_iff, Prod.mk.injEq, Prod.exists] at h
      obtain ⟨b, r, hcut, rfl, rfl⟩ := h
      obtain ⟨t, rfl, -⟩ := exists_of_cut hcut
      have hhead : after? m w (c :: b) = none := by
        cases hafter : after? m w (c :: b) with
        | none => rfl
        | some rest =>
          rw [← List.cons_append, after?_append hafter] at hnone
          cases hnone
      rw [includes_cons, hhead]
      simpa using ih hcut

/-- No shorter end of a text satisfies `p` than the one that is found. -/
theorem not_of_lastSuffix? {p : Text → Bool} {t found s : Text}
    (h : lastSuffix? p t = some found) (hs : s <:+ found) (hne : s ≠ found) (hnil : s ≠ []) :
    ¬ p s := by
  have hnone : ∀ {t : Text}, lastSuffix? p t = none → ∀ s, s <:+ t → s ≠ [] → ¬ p s := by
    intro t ht
    induction t with
    | nil =>
      intro s hs hnil
      exact absurd (List.suffix_nil.mp hs) hnil
    | cons c t ih =>
      intro s hs hnil
      simp only [lastSuffix?] at ht
      split at ht
      · cases ht
      · rename_i hrest
        rcases List.suffix_cons_iff.mp hs with rfl | hs
        · intro hp
          rw [if_pos hp] at ht
          cases ht
        · exact ih hrest s hs hnil
  induction t with
  | nil => cases h
  | cons c t ih =>
    simp only [lastSuffix?] at h
    split at h
    · rename_i found' hfound
      obtain rfl := Option.some.inj h
      exact ih hfound
    · rename_i hrest
      split at h
      · obtain rfl := Option.some.inj h
        rcases List.suffix_cons_iff.mp hs with rfl | hs
        · exact absurd rfl hne
        · exact hnone hrest s hs hnil
      · cases h

/-- An end of a text that satisfies `p` is found, unless a shorter one is. -/
theorem lastSuffix?_ne_none {p : Text → Bool} {t s : Text} (hs : s <:+ t) (hnil : s ≠ [])
    (hp : p s) : lastSuffix? p t ≠ none := by
  induction t with
  | nil => exact absurd (List.suffix_nil.mp hs) hnil
  | cons c t ih =>
    rw [lastSuffix?]
    rcases List.suffix_cons_iff.mp hs with rfl | hs
    · split <;> simp [hp]
    · split
      · simp
      · rename_i hnone
        exact absurd hnone (ih hs)

end Text

namespace Comment

variable {t rest body u : Text}

/-! ## Reading and writing pieces -/

/-- What is read as a comment is written as one, without its end inside. -/
theorem eq_of_read (h : reader.read t = some (body, rest)) :
    t = text body ++ rest ∧ ¬ includes .exact closing body := by
  simp only [reader, read, Option.bind_eq_some_iff] at h
  obtain ⟨inner, hinner, hcut⟩ := h
  rw [after?_exact.mp hinner, cut_exact hcut, text]
  exact ⟨by simp, not_includes_of_cut hcut (by decide)⟩

/-- Where no comment is read behind its beginning, none ends. -/
theorem not_includes_closing_of_read (h : reader.read ('/' :: '*' :: t) = none) :
    ¬ includes .exact closing t := by
  have hopen : after? .exact opening ('/' :: '*' :: t) = some t :=
    after?_append_self .exact opening t
  simp only [reader, read, hopen, Option.bind_some] at h
  simp [includes, h]

theorem read_cons_of_ne {c : Char} (hc : c ≠ '/') (u : Text) : reader.read (c :: u) = none :=
  awaitsLiteral_reader _ (by simp [opening, after?, Letters.agree, Ne.symm hc])

/-- Where no comment ends none is found. -/
theorem scan_of_not_includes_closing (h : ¬ includes .exact closing t) :
    reader.scan t = t.map .plain := by
  have hpasses : reader.Passes t [] := by
    intro s hs hne
    rw [List.append_nil]
    cases hread : reader.read s with
    | none => rfl
    | some found =>
      obtain ⟨body, rest⟩ := found
      obtain ⟨rfl, -⟩ := eq_of_read hread
      have hcloses : closing <:+: text body ++ rest := ⟨opening ++ body, rest, by simp [text]⟩
      exact absurd (includes_of_isInfix (hcloses.trans hs.isInfix) (by decide)) h
  exact hpasses.scan_eq

/-! ## What the first pass keeps -/

theorem stripUnlessSource_nil : stripUnlessSource [] = [] := by
  simp [stripUnlessSource, Reader.substitute]

theorem strip_nil : strip [] = [] := by simp [strip, Reader.substitute]

theorem stripUnlessSource_of_read (h : reader.read t = some (body, rest)) :
    stripUnlessSource t =
      (if namesSource body then text body else []) ++ stripUnlessSource rest :=
  Reader.substitute_of_read h _

theorem stripUnlessSource_cons {c : Char} (h : reader.read (c :: t) = none) :
    stripUnlessSource (c :: t) = c :: stripUnlessSource t :=
  Reader.substitute_cons_of_none h _

theorem strip_of_read (h : reader.read t = some (body, rest)) : strip t = strip rest :=
  Reader.substitute_of_read h _

theorem strip_cons {c : Char} (h : reader.read (c :: t) = none) :
    strip (c :: t) = c :: strip t :=
  Reader.substitute_cons_of_none h _

theorem stripUnlessSource_of_not_includes_closing (h : ¬ includes .exact closing t) :
    stripUnlessSource t = t := by
  rw [stripUnlessSource, Reader.substitute_eq_flatMap, scan_of_not_includes_closing h,
    Reader.flatMap_writePiece_plain]

/-- The first pass leaves nothing but what was there. -/
theorem mem_of_mem_stripUnlessSource {c : Char} (h : c ∈ stripUnlessSource t) : c ∈ t := by
  have hsuffix : reader.LeavesSuffix := by
    intro t body rest hread
    obtain ⟨rfl, -⟩ := eq_of_read hread
    exact List.suffix_append _ _
  have hmem : c ∈ t ∨ c ∈ ([] : Text) := by
    refine Reader.mem_substitute hsuffix ?_ h
    intro t body rest hread d hd
    obtain ⟨rfl, -⟩ := eq_of_read hread
    split at hd
    · exact .inl (List.mem_append_left _ hd)
    · exact .inr hd
  exact hmem.resolve_right List.not_mem_nil

section Word

variable {w : Text}

/-- A word without slashes at the head of what the first pass leaves is left by one pass too. -/
theorem after?_strip_isSome (hw : '/' ∉ w)
    (h : (after? .exact w (stripUnlessSource t)).isSome) : (after? .exact w (strip t)).isSome := by
  fun_induction Reader.scan reader t generalizing w with
  | case1 => rwa [stripUnlessSource_nil, ← strip_nil] at h
  | case2 c t body rest hread ih =>
    rw [strip_of_read hread]
    rw [stripUnlessSource_of_read hread] at h
    split at h
    · cases w with
      | nil => simp [after?]
      | cons a w =>
        -- the comment that is kept begins with a slash
        have ha : a ≠ '/' := fun ha => hw (ha ▸ List.mem_cons_self)
        simp [text, opening, after?, Letters.agree, ha] at h
    · exact ih hw h
  | case3 c t hread ih =>
    rw [strip_cons hread]
    rw [stripUnlessSource_cons hread] at h
    cases w with
    | nil => simp [after?]
    | cons a w =>
      have hbehind : '/' ∉ w := fun hmem => hw (List.mem_cons_of_mem a hmem)
      simp only [after?] at h ⊢
      split at h
      · rename_i hagree
        rw [if_pos hagree]
        exact ih hbehind h
      · cases h

/-- A word without slashes that occurs in what the first pass leaves occurs in the text, or in what
one pass leaves. -/
theorem includes_of_includes_stripUnlessSource (hnil : w ≠ []) (hw : '/' ∉ w)
    (h : includes .exact w (stripUnlessSource t)) :
    includes .exact w t ∨ includes .exact w (strip t) := by
  have hslash : ∀ a ∈ w, ¬ Letters.exact.agree a '/' := by
    rintro a ha hagree
    exact hw (eq_of_beq hagree ▸ ha)
  fun_induction Reader.scan reader t with
  | case1 => exact .inl (by rwa [stripUnlessSource_nil] at h)
  | case2 c t body rest hread ih =>
    rw [strip_of_read hread]
    rw [stripUnlessSource_of_read hread] at h
    obtain ⟨heq, -⟩ := eq_of_read hread
    rw [heq]
    have hrest : includes .exact w (stripUnlessSource rest) →
        includes .exact w (text body ++ rest) ∨ includes .exact w (strip rest) := fun h =>
      (ih h).imp_left (includes_of_isInfix (List.suffix_append _ _).isInfix)
    split at h
    · have htext : text body = (opening ++ body ++ ['*']) ++ ['/'] := by simp [text, closing]
      rw [htext, List.append_assoc, List.singleton_append, includes_append_cons hnil hslash,
        Bool.or_eq_true] at h
      rcases h with h | h
      · exact .inl (includes_of_isInfix ⟨[], '/' :: rest, by simp [htext]⟩ h)
      · exact hrest h
    · exact hrest h
  | case3 c t hread ih =>
    rw [stripUnlessSource_cons hread, includes_cons, Bool.or_eq_true] at h
    rw [strip_cons hread]
    rcases h with h | h
    · rw [← stripUnlessSource_cons hread] at h
      have hhead := after?_strip_isSome hw h
      rw [strip_cons hread] at hhead
      exact .inr (includes_iff.mpr ⟨[], _, rfl, hhead⟩)
    · exact (ih h).imp (includes_of_isInfix (List.suffix_cons c t).isInfix)
        (includes_of_isInfix (List.suffix_cons c _).isInfix)

end Word

/-! ## Comments that are set off -/

/-- One of two pieces is a comment and the other one a star. -/
def meets : Piece Text → Piece Text → Prop
  | .plain c, .found _ => c = '*'
  | .found _, .plain c => c = '*'
  | _, _ => False

instance (p q : Piece Text) : Decidable (meets p q) := by
  cases p <;> cases q <;> simp only [meets] <;> infer_instance

/-- No star stands directly before a comment or directly behind one. -/
def IsSetOff (t : Text) : Prop := (reader.scan t).IsChain fun p q => ¬ meets p q

instance (t : Text) : Decidable (IsSetOff t) := inferInstanceAs (Decidable (List.IsChain _ _))

namespace IsSetOff

theorem of_read {c : Char} (h : IsSetOff (c :: t))
    (hread : reader.read (c :: t) = some (body, rest)) : IsSetOff rest := by
  rw [IsSetOff, Reader.scan_of_read hread] at h
  exact h.tail

theorem tail {c : Char} (h : IsSetOff (c :: t)) (hread : reader.read (c :: t) = none) :
    IsSetOff t := by
  rw [IsSetOff, Reader.scan_of_none hread] at h
  exact List.IsChain.tail h

/-- Behind a comment no star comes up when the first pass is over. -/
theorem head?_stripUnlessSource {c : Char} (h : IsSetOff (c :: t))
    (hread : reader.read (c :: t) = some (body, rest)) :
    (stripUnlessSource rest).head? ≠ some '*' := by
  rw [IsSetOff, Reader.scan_of_read hread] at h
  clear hread
  fun_induction Reader.scan reader rest generalizing body with
  | case1 => simp [stripUnlessSource_nil]
  | case2 d u b r hread ih =>
    rw [stripUnlessSource_of_read hread]
    split
    · simp [text, opening]
    · exact ih (List.IsChain.tail h)
  | case3 d u hread ih =>
    rw [stripUnlessSource_cons hread]
    have hd := List.IsChain.rel_head? h rfl
    simpa [meets] using hd

/-- A slash that begins no comment begins none when the first pass is over. -/
theorem eq_star_cons {c : Char} {u : Text} (h : IsSetOff (c :: t))
    (hread : reader.read (c :: t) = none) (hstar : stripUnlessSource t = '*' :: u) :
    ∃ u', t = '*' :: u' ∧ stripUnlessSource u' = u := by
  cases t with
  | nil => simp [stripUnlessSource_nil] at hstar
  | cons d t =>
    have htail := h.tail hread
    cases hread' : reader.read (d :: t) with
    | some found =>
      obtain ⟨body, rest⟩ := found
      have hhead := htail.head?_stripUnlessSource hread'
      rw [stripUnlessSource_of_read hread'] at hstar
      split at hstar
      · simp [text, opening] at hstar
      · rw [List.nil_append] at hstar
        rw [hstar] at hhead
        exact absurd rfl hhead
    | none =>
      rw [stripUnlessSource_cons hread'] at hstar
      obtain ⟨rfl, hu⟩ := List.cons.inj hstar
      exact ⟨t, rfl, hu⟩

/-- A slash that comes up behind a star when the first pass is over was there before, if what
follows is no comment. -/
theorem eq_slash_cons {u : Text} (h : IsSetOff ('*' :: t)) (hread : reader.read ('*' :: t) = none)
    (hslash : stripUnlessSource t = '/' :: u) : ∃ u', t = '/' :: u' ∧ stripUnlessSource u' = u := by
  rw [IsSetOff, Reader.scan_of_none hread] at h
  cases t with
  | nil => simp [stripUnlessSource_nil] at hslash
  | cons d t =>
    cases hread' : reader.read (d :: t) with
    | some found =>
      obtain ⟨body, rest⟩ := found
      rw [Reader.scan_of_read hread'] at h
      have hmeets := List.IsChain.rel_head? h rfl
      simp [meets] at hmeets
    | none =>
      rw [stripUnlessSource_cons hread'] at hslash
      obtain ⟨rfl, hu⟩ := List.cons.inj hslash
      exact ⟨t, rfl, hu⟩

/-- The second pass finds no comment where the first one found none. -/
theorem read_stripUnlessSource {c : Char} (h : IsSetOff (c :: t))
    (hread : reader.read (c :: t) = none) : reader.read (c :: stripUnlessSource t) = none := by
  cases hafter : after? .exact opening (c :: stripUnlessSource t) with
  | none => exact awaitsLiteral_reader _ hafter
  | some inner =>
    have hslash : c :: stripUnlessSource t = '/' :: '*' :: inner := after?_exact.mp hafter
    obtain ⟨rfl, hstar⟩ := List.cons.inj hslash
    obtain ⟨u, rfl, -⟩ := h.eq_star_cons hread hstar
    -- the comment is open to the end, so that there are no others behind it
    have hopen := not_includes_closing_of_read hread
    have hsame : stripUnlessSource ('*' :: u) = '*' :: u := by
      rw [stripUnlessSource_cons (read_cons_of_ne (by decide) u),
        stripUnlessSource_of_not_includes_closing hopen]
    rw [hsame]
    exact hread

/-- Both passes do what one does. -/
theorem strip_stripUnlessSource (h : IsSetOff t) : strip (stripUnlessSource t) = strip t := by
  fun_induction Reader.scan reader t with
  | case1 => rw [stripUnlessSource_nil]
  | case2 c t body rest hread ih =>
    obtain ⟨-, hbody⟩ := eq_of_read hread
    rw [strip_of_read hread, stripUnlessSource_of_read hread]
    split
    · rw [strip_of_read (read_text_append hbody _), ih (h.of_read hread)]
    · exact ih (h.of_read hread)
  | case3 c t hread ih =>
    rw [strip_cons hread, stripUnlessSource_cons hread, strip_cons (h.read_stripUnlessSource hread),
      ih (h.tail hread)]

end IsSetOff

end Comment

end ScopedStyles
