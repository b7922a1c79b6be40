import ScopedStyles.Proofs.Comment.Kept

/-!
# The source map of a stylesheet that loses its comments

The pass that keeps the comments which say where the source is makes no source map comment
(`IsSetOff.sourceMap_stripUnlessSource`), and it keeps the one at the end if that is such a comment
(`Comment.KeepsMap`). It may be none: blanks in front of the `#` make a comment that is a source
map but not kept, and a source map comment in this sense runs on over later comments.
-/

namespace ScopedStyles

open Text

namespace Comment

variable {t rest body s u x : Text}

/-! ## Where a source map comment begins -/

/-- The head of a source map comment is not cut by a star. -/
theorem afterSourceMapHead?_append_star (hx : x ≠ ['/']) (u : Text) :
    afterSourceMapHead? (x ++ '*' :: u) = (afterSourceMapHead? x).map (· ++ '*' :: u) := by
  have hopen : after? .exact opening (x ++ '*' :: u) =
      (after? .exact opening x).map (· ++ '*' :: u) := by
    have hopening : opening = ['/', '*'] := rfl
    match x, hx with
    | [], _ => rfl
    | [c], hx =>
      have hc : '/' ≠ c := fun hc => hx (hc ▸ rfl)
      simp [hopening, after?, Letters.agree, hc]
    | c :: d :: x, _ =>
      simp only [hopening, List.cons_append, after?]
      split
      · split <;> rfl
      · rfl
  have hword : ∀ w : Text, w ≠ [] → '*' ∉ w → ∀ y : Text,
      after? .exact w (trimStart (y ++ '*' :: u)) =
        (after? .exact w (trimStart y)).map (· ++ '*' :: u) := by
    intro w hw hstar y
    have hdisagree : ∀ a ∈ w, ¬ Letters.exact.agree a '*' := fun a ha hagree =>
      hstar (eq_of_beq hagree ▸ ha)
    have hbars := bars_cons (fun a ha => hdisagree a (List.mem_of_mem_tail ha)) u
    rw [trimStart_append_cons (by decide)]
    exact after?_append_eq_map hbars (after?_cons_of_disagree hw hdisagree u) _
  simp only [afterSourceMapHead?, Option.bind_eq_bind, hopen]
  cases after? .exact opening x with
  | none => rfl
  | some inner =>
    simp only [Option.map_some, Option.bind_some]
    rw [hword ['#'] (by decide) (by decide)]
    cases after? .exact ['#'] (trimStart inner) with
    | none => rfl
    | some name =>
      simp only [Option.map_some, Option.bind_some]
      exact hword _ (by decide) (by decide) name

theorem isSourceMap_ne_nil (h : isSourceMap u) : u ≠ [] := by
  rintro rfl
  exact absurd h (by decide)

theorem closing_suffix_of_isSourceMap (h : isSourceMap u) : closing <:+ u := by
  obtain ⟨inner, hinner, hclosing⟩ := exists_after?_of_isSourceMap h
  exact hclosing.trans (suffix_of_after? hinner)

theorem opening_prefix_of_isSourceMap (h : isSourceMap u) : opening <+: u := by
  obtain ⟨inner, hinner, -⟩ := exists_after?_of_isSourceMap h
  exact ⟨inner, (after?_exact.mp hinner).symm⟩

theorem trimEnd_of_closing_suffix (h : closing <:+ u) : trimEnd u = u := by
  obtain ⟨y, rfl⟩ := h
  have hslash : y ++ closing = (y ++ ['*']) ++ ['/'] := by simp [closing]
  rw [hslash, trimEnd_append_singleton (by decide)]

theorem suffix_of_afterSourceMapHead? {y : Text} (h : afterSourceMapHead? x = some y) :
    y <:+ x := by
  simp only [afterSourceMapHead?, Option.bind_eq_bind, Option.bind_eq_some_iff] at h
  obtain ⟨inner, hinner, name, hname, hurl⟩ := h
  exact (suffix_of_after? hurl).trans ((trimStart_suffix name).trans ((suffix_of_after? hname).trans
    ((trimStart_suffix inner).trans (suffix_of_after? hinner))))

theorem trimEnd_append_of_mem {c : Char} (hc : c ∈ u) (hblank : ¬ isBlank c) (x : Text) :
    trimEnd (x ++ u) = x ++ trimEnd u := by
  obtain ⟨y, z, rfl⟩ := List.append_of_mem hc
  rw [← List.append_assoc, trimEnd_append_cons hblank, trimEnd_append_cons hblank,
    List.append_assoc]

/-- What is left of an end of a text without the blanks at its end is an end of what is left of the
text. -/
theorem trimEnd_suffix_trimEnd (hs : s <:+ t) (hne : trimEnd s ≠ []) : trimEnd s <:+ trimEnd t := by
  obtain ⟨p, rfl⟩ := hs
  have hblank : ¬ ∀ c ∈ s, isBlank c := fun hall => hne (trimEnd_eq_nil hall)
  simp only [not_forall] at hblank
  obtain ⟨c, hc, hblank⟩ := hblank
  rw [trimEnd_append_of_mem hc hblank]
  exact List.suffix_append p _

/-- A text that ends as a comment does, blanks apart, has a source map comment if one begins in it
and has something in front of its end. -/
theorem sourceMap_ne_nil (hs : s <:+ t) (hmap : isSourceMap (trimEnd s)) : sourceMap t ≠ [] := by
  have hne : trimEnd s ≠ [] := isSourceMap_ne_nil hmap
  rw [sourceMap]
  cases hfound : lastSuffix? isSourceMap (trimEnd t) with
  | none => exact absurd hfound (lastSuffix?_ne_none (trimEnd_suffix_trimEnd hs hne) hne hmap)
  | some found => exact isSourceMap_ne_nil (suffix_and_of_lastSuffix? hfound).2

/-- A source map comment at the end of a text is one of its ends, blanks apart. -/
theorem exists_of_sourceMap_ne_nil (h : sourceMap t ≠ []) :
    closing <:+ trimEnd t ∧ ∃ s, s <:+ t ∧ isSourceMap (trimEnd s) := by
  rw [sourceMap] at h
  cases hfound : lastSuffix? isSourceMap (trimEnd t) with
  | none => simp [hfound] at h
  | some found =>
    obtain ⟨hsuffix, hmap⟩ := suffix_and_of_lastSuffix? hfound
    have hends := closing_suffix_of_isSourceMap hmap
    refine ⟨hends.trans hsuffix, found ++ blanksAtEnd t, ?_, ?_⟩
    · obtain ⟨p, hp⟩ := hsuffix
      exact ⟨p, by rw [← List.append_assoc, hp, trimEnd_append_blanksAtEnd]⟩
    · have hblanks : ∀ c ∈ blanksAtEnd t, isBlank c := fun c hc => isBlank_of_mem_blanksAtEnd hc
      rwa [trimEnd_append_of_blanks hblanks, trimEnd_of_closing_suffix hends]

/-! ## Where a text ends when the first pass is over -/

theorem trimEnd_ne_nil {c : Char} (hc : c ∈ u) (hblank : ¬ isBlank c) : trimEnd u ≠ [] := by
  obtain ⟨y, z, rfl⟩ := List.append_of_mem hc
  rw [trimEnd_append_cons hblank]
  exact List.append_ne_nil_of_right_ne_nil _ (List.cons_ne_nil _ _)

theorem trimEnd_append_closing (x u : Text) :
    trimEnd (x ++ closing ++ u) = x ++ closing ++ trimEnd u := by
  have hclosing : ∀ r : Text, x ++ closing ++ r = (x ++ ['*']) ++ '/' :: r := by simp [closing]
  rw [hclosing, hclosing, trimEnd_append_cons (by decide)]

theorem closing_suffix_trimEnd_append (h : closing <:+ trimEnd u) (x : Text) :
    closing <:+ trimEnd (x ++ u) := by
  by_cases hall : ∀ c ∈ u, isBlank c
  · rw [trimEnd_eq_nil hall] at h
    exact absurd (List.suffix_nil.mp h) (by decide)
  · simp only [not_forall] at hall
    obtain ⟨c, hc, hblank⟩ := hall
    rw [trimEnd_append_of_mem hc hblank]
    exact h.trans (List.suffix_append x _)

theorem closing_suffix_trimEnd_text (body u : Text) (hu : ∀ c ∈ u, isBlank c) :
    closing <:+ trimEnd (text body ++ u) := by
  rw [text, trimEnd_append_closing, trimEnd_eq_nil hu, List.append_nil]
  exact List.suffix_append _ _

/-- Where the first pass leaves nothing but blanks there was nothing else, or a comment at the
end. -/
theorem closing_suffix_of_blanks (h : ∀ c ∈ stripUnlessSource t, isBlank c) :
    (∀ c ∈ t, isBlank c) ∨ closing <:+ trimEnd t := by
  fun_induction Reader.scan reader t with
  | case1 => exact .inl (by simp)
  | case2 c t body rest hread ih =>
    obtain ⟨heq, -⟩ := eq_of_read hread
    rw [stripUnlessSource_of_read hread] at h
    rw [heq]
    rcases ih fun c hc => h c (List.mem_append_right _ hc) with hall | hends
    · exact .inr (closing_suffix_trimEnd_text body rest hall)
    · exact .inr (closing_suffix_trimEnd_append hends _)
  | case3 c t hread ih =>
    rw [stripUnlessSource_cons hread, List.forall_mem_cons] at h
    rcases ih h.2 with hall | hends
    · exact .inl (List.forall_mem_cons.mpr ⟨h.1, hall⟩)
    · exact .inr (closing_suffix_trimEnd_append hends [c])

theorem closing_suffix_of_append {c : Char} {k : Text} (h : closing <:+ x ++ c :: k) (hk : k ≠ []) :
    closing <:+ k ∨ c = '*' ∧ k = ['/'] := by
  match k, hk with
  | [d], _ =>
    obtain ⟨p, hp⟩ := h
    have hsplit : (p ++ ['*']) ++ ['/'] = (x ++ [c]) ++ [d] := by simpa [closing] using hp
    obtain ⟨hfront, hd⟩ := List.append_inj' hsplit rfl
    obtain ⟨-, hc⟩ := List.append_inj' hfront rfl
    obtain ⟨rfl⟩ := List.cons.inj hd
    obtain ⟨rfl⟩ := List.cons.inj hc
    exact .inr ⟨rfl, rfl⟩
  | d :: e :: k, _ =>
    have hsuffix : d :: e :: k <:+ x ++ c :: d :: e :: k :=
      (List.suffix_cons c _).trans (List.suffix_append x _)
    exact .inl (List.suffix_of_suffix_length_le h hsuffix (by simp [closing]))

/-- A star and a slash that are left at the end stood side by side, as no comment follows a star. -/
theorem IsSetOff.closing_suffix_of_slash (h : IsSetOff ('*' :: t))
    (hread : reader.read ('*' :: t) = none) (hslash : trimEnd (stripUnlessSource t) = ['/']) :
    closing <:+ trimEnd ('*' :: t) := by
  have hbehind := trimEnd_append_blanksAtEnd (stripUnlessSource t)
  rw [hslash] at hbehind
  obtain ⟨u, rfl, hu⟩ := h.eq_slash_cons hread hbehind.symm
  have hblanks : ∀ c ∈ stripUnlessSource u, isBlank c := by
    rw [hu]
    exact fun c hc => isBlank_of_mem_blanksAtEnd hc
  rcases closing_suffix_of_blanks hblanks with hall | hends
  · have hend := trimEnd_append_of_blanks hall closing
    exact ⟨[], hend.symm⟩
  · exact closing_suffix_trimEnd_append hends closing

/-- What ends as a comment does when the first pass is over did so before. -/
theorem IsSetOff.closing_suffix (h : IsSetOff t)
    (hends : closing <:+ trimEnd (stripUnlessSource t)) :
    closing <:+ trimEnd t := by
  fun_induction Reader.scan reader t with
  | case1 => rwa [stripUnlessSource_nil] at hends
  | case2 c t body rest hread ih =>
    obtain ⟨heq, -⟩ := eq_of_read hread
    rw [heq]
    by_cases hall : ∀ c ∈ stripUnlessSource rest, isBlank c
    · rcases closing_suffix_of_blanks hall with hall | hends
      · exact closing_suffix_trimEnd_text body rest hall
      · exact closing_suffix_trimEnd_append hends _
    · refine closing_suffix_trimEnd_append (ih (h.of_read hread) ?_) _
      simp only [not_forall] at hall
      obtain ⟨d, hd, hblank⟩ := hall
      rw [stripUnlessSource_of_read hread, trimEnd_append_of_mem hd hblank] at hends
      split at hends
      · have htext : text body = (opening ++ body ++ ['*']) ++ ['/'] := by simp [text, closing]
        rw [htext, List.append_assoc, List.singleton_append] at hends
        rcases closing_suffix_of_append hends (trimEnd_ne_nil hd hblank) with hends | ⟨hslash, -⟩
        · exact hends
        · exact absurd hslash (by decide)
      · exact hends
  | case3 c t hread ih =>
    rw [stripUnlessSource_cons hread] at hends
    by_cases hall : ∀ c ∈ stripUnlessSource t, isBlank c
    · have hone : trimEnd (c :: stripUnlessSource t) = trimEnd [c] :=
        trimEnd_append_of_blanks hall [c]
      rw [hone] at hends
      have hshort : closing.length ≤ 1 := hends.length_le.trans (trimEnd_isPrefix [c]).length_le
      exact absurd hshort (by decide)
    · simp only [not_forall] at hall
      obtain ⟨d, hd, hblank⟩ := hall
      have hsplit : trimEnd (c :: stripUnlessSource t) = c :: trimEnd (stripUnlessSource t) :=
        trimEnd_append_of_mem hd hblank [c]
      rw [hsplit] at hends
      rcases closing_suffix_of_append (x := []) hends (trimEnd_ne_nil hd hblank) with
        hends | ⟨rfl, hslash⟩
      · exact closing_suffix_trimEnd_append (ih (h.tail hread) hends) [c]
      · exact h.closing_suffix_of_slash hread hslash

/-! ## Where a source map comment begins when the first pass is over -/

/-- What begins as a comment when the first pass is over began so before, or it stands in a comment
that is kept, and that ends where it did. -/
theorem IsSetOff.suffix_or_of_opening (h : IsSetOff t) (hs : s <:+ stripUnlessSource t)
    (hopen : opening <+: s) :
    s <:+ t ∨
      ∃ x rest, s = x ++ closing ++ stripUnlessSource rest ∧ x ++ closing ++ rest <:+ t := by
  fun_induction Reader.scan reader t with
  | case1 =>
    rw [stripUnlessSource_nil] at hs
    exact .inl hs
  | case2 c t body rest hread ih =>
    obtain ⟨heq, -⟩ := eq_of_read hread
    rw [stripUnlessSource_of_read hread] at hs
    rw [heq]
    have hrest : s <:+ stripUnlessSource rest → s <:+ text body ++ rest ∨
        ∃ x r, s = x ++ closing ++ stripUnlessSource r ∧
          x ++ closing ++ r <:+ text body ++ rest := by
      intro hs
      refine (ih (h.of_read hread) hs).imp (·.trans (List.suffix_append (text body) rest)) ?_
      rintro ⟨x, r, hx, hr⟩
      exact ⟨x, r, hx, hr.trans (List.suffix_append (text body) rest)⟩
    split at hs
    · obtain ⟨p, hp⟩ := hs
      obtain ⟨s', hs', rfl⟩ | ⟨q, -, hq⟩ := List.append_eq_append_iff.mp hp
      · have hsuffix : s' <:+ text body := ⟨p, hs'.symm⟩
        have hcloses : closing <:+ text body := List.suffix_append _ _
        rcases s' with _ | ⟨c, _ | ⟨d, s'⟩⟩
        · exact hrest (List.suffix_refl _)
        · -- the slash that ends the comment begins no other one
          obtain ⟨u, hu⟩ := hopen
          have hstar := h.head?_stripUnlessSource hread
          have hopening : opening = ['/', '*'] := rfl
          rw [hopening] at hu
          simp only [List.cons_append, List.nil_append, List.cons.injEq] at hu
          obtain ⟨-, hu⟩ := hu
          rw [← hu] at hstar
          exact absurd rfl hstar
        · obtain ⟨x, hx⟩ := List.suffix_of_suffix_length_le hcloses hsuffix (by simp [closing])
          refine .inr ⟨x, rest, by rw [hx], ?_⟩
          obtain ⟨y, hy⟩ := hsuffix
          exact ⟨y, by rw [hx, ← List.append_assoc, hy]⟩
      · exact hrest ⟨q, hq.symm⟩
    · exact hrest hs
  | case3 c t hread ih =>
    rw [stripUnlessSource_cons hread] at hs
    rcases List.suffix_cons_iff.mp hs with rfl | hs
    · obtain ⟨u, hu⟩ := hopen
      obtain ⟨rfl, hstar⟩ := List.cons.inj hu
      obtain ⟨u', rfl, -⟩ := h.eq_star_cons hread hstar.symm
      have hopen := not_includes_closing_of_read hread
      rw [stripUnlessSource_cons (read_cons_of_ne (by decide) u'),
        stripUnlessSource_of_not_includes_closing hopen]
      exact .inl (List.suffix_refl _)
    · refine (ih (h.tail hread) hs).imp (·.trans (List.suffix_cons c t)) ?_
      rintro ⟨x, r, hx, hr⟩
      exact ⟨x, r, hx, hr.trans (List.suffix_cons c t)⟩

/-- A source map comment that begins in a comment is one whatever follows, as long as the text ends
as a comment does. -/
theorem isSourceMap_trimEnd_append {u v : Text} (hmap : isSourceMap (trimEnd (x ++ closing ++ u)))
    (huv : ∀ c ∈ u, c ∈ v) (hends : closing <:+ trimEnd (x ++ closing ++ v)) :
    isSourceMap (trimEnd (x ++ closing ++ v)) := by
  have hsplit : ∀ r : Text, trimEnd (x ++ closing ++ r) = x ++ '*' :: '/' :: trimEnd r := by
    intro r
    rw [trimEnd_append_closing]
    simp [closing]
  have hx : x ≠ ['/'] := by
    rintro rfl
    rw [hsplit] at hmap
    exact absurd hmap Bool.false_ne_true
  rw [hsplit] at hmap hends ⊢
  rw [isSourceMap, afterSourceMapHead?_append_star hx] at hmap ⊢
  cases hhead : afterSourceMapHead? x with
  | none => simp [hhead] at hmap
  | some y =>
    simp only [hhead, Option.map_some, Bool.and_eq_true, decide_eq_true_eq] at hmap ⊢
    obtain ⟨hlen, -⟩ := hmap
    -- what is there in front of the end is the url, or it is more than the first comment
    have hlong : closing.length < (y ++ '*' :: '/' :: trimEnd v).length := by
      have htwo : closing.length = 2 := rfl
      simp only [htwo, List.length_append, List.length_cons] at hlen ⊢
      by_cases hmore : trimEnd v = []
      · have hnil : trimEnd u = [] := by
          refine trimEnd_eq_nil fun c hc => ?_
          have hv := trimEnd_append_blanksAtEnd v
          rw [hmore, List.nil_append] at hv
          exact isBlank_of_mem_blanksAtEnd (hv.symm ▸ huv c hc)
        rw [hnil, List.length_nil] at hlen
        omega
      · have := List.length_pos_iff.mpr hmore
        omega
    refine ⟨hlong, List.isSuffixOf_iff_suffix.mpr ?_⟩
    have hsuffix : y ++ '*' :: '/' :: trimEnd v <:+ x ++ '*' :: '/' :: trimEnd v := by
      obtain ⟨p, rfl⟩ := suffix_of_afterSourceMapHead? hhead
      exact ⟨p, by simp⟩
    exact List.suffix_of_suffix_length_le hends hsuffix hlong.le

/-- The first pass makes no source map comment. -/
theorem IsSetOff.sourceMap_stripUnlessSource_of_nil (h : IsSetOff t) (hnone : sourceMap t = []) :
    sourceMap (stripUnlessSource t) = [] := by
  by_contra hne
  obtain ⟨hends, s, hs, hmap⟩ := exists_of_sourceMap_ne_nil hne
  have hbegins : opening <+: trimEnd s := opening_prefix_of_isSourceMap hmap
  have hends := h.closing_suffix hends
  obtain hs | ⟨x, rest, rfl, p, rfl⟩ :=
    h.suffix_or_of_opening hs (hbegins.trans (trimEnd_isPrefix s))
  · exact sourceMap_ne_nil hs hmap hnone
  · have hsplit : trimEnd (p ++ (x ++ closing ++ rest)) = p ++ trimEnd (x ++ closing ++ rest) :=
      trimEnd_append_of_mem (c := '/') (by simp [closing]) (by decide) p
    have hlong : closing.length ≤ (trimEnd (x ++ closing ++ rest)).length := by
      rw [trimEnd_append_closing, List.length_append, List.length_append]
      omega
    rw [hsplit] at hends
    have hends := List.suffix_of_suffix_length_le hends (List.suffix_append p _) hlong
    exact sourceMap_ne_nil (List.suffix_append p _)
      (isSourceMap_trimEnd_append hmap (fun c hc => mem_of_mem_stripUnlessSource hc) hends) hnone

/-! ## A source map that is kept -/

/-- If there is a source map comment, it is the last of the comments, and of those that are kept. -/
def KeepsMap (t : Text) : Prop :=
  sourceMap t ≠ [] → ∃ (pieces : List (Piece Text)) (body blanks : Text),
    reader.scan t = pieces ++ .found body :: blanks.map .plain ∧ (∀ c ∈ blanks, isBlank c) ∧
      namesSource body ∧ sourceMap t = text body

/-- Comments that are written as they are read make the text. -/
theorem substitute_text (t : Text) : reader.substitute text t = t := by
  fun_induction Reader.scan reader t with
  | case1 => simp [Reader.substitute]
  | case2 c t body rest hread ih =>
    obtain ⟨heq, -⟩ := eq_of_read hread
    rw [Reader.substitute_of_read hread, ih, heq]
  | case3 c t hread ih => rw [Reader.substitute_cons_of_none hread, ih]

/-- The source map comment at the end is the same when the first pass is over. -/
theorem IsSetOff.sourceMap_stripUnlessSource (h : IsSetOff t) (hkeeps : KeepsMap t) :
    sourceMap (stripUnlessSource t) = sourceMap t := by
  by_cases hnone : sourceMap t = []
  · rw [h.sourceMap_stripUnlessSource_of_nil hnone, hnone]
  obtain ⟨pieces, body, blanks, hscan, hblanks, hnames, hmap⟩ := hkeeps hnone
  have hends : ∀ x : Text, trimEnd (x ++ (text body ++ blanks)) = x ++ text body := by
    intro x
    have htext : x ++ (text body ++ blanks) = (x ++ opening ++ body) ++ closing ++ blanks := by
      simp [text]
    rw [htext, trimEnd_append_closing, trimEnd_eq_nil hblanks]
    simp [text]
  have ht : t = pieces.flatMap (Reader.writePiece text) ++ (text body ++ blanks) := by
    conv => lhs; rw [← substitute_text t, Reader.substitute_eq_flatMap, hscan, List.flatMap_append,
      List.flatMap_cons, Reader.flatMap_writePiece_plain]
    rfl
  have hstrip : stripUnlessSource t =
      pieces.flatMap (Reader.writePiece fun body => if namesSource body then text body else []) ++
        (text body ++ blanks) := by
    rw [stripUnlessSource, Reader.substitute_eq_flatMap, hscan, List.flatMap_append,
      List.flatMap_cons, Reader.flatMap_writePiece_plain]
    simp [Reader.writePiece, hnames]
  have hfound : lastSuffix? isSourceMap (pieces.flatMap (Reader.writePiece text) ++ text body) =
      some (text body) := by
    have hmap' := hmap
    rw [ht, sourceMap, hends] at hmap'
    cases hfound : lastSuffix? isSourceMap
        (pieces.flatMap (Reader.writePiece text) ++ text body) with
    | none =>
      rw [hfound] at hmap'
      exact absurd hmap' (List.cons_ne_nil _ _).symm
    | some found => rw [← hmap', hfound, Option.getD_some]
  obtain ⟨-, hp⟩ := suffix_and_of_lastSuffix? hfound
  have hlast : ∀ s, s <:+ text body → s ≠ text body → ¬ isSourceMap s := by
    intro s hs hne hs'
    have hnil : s ≠ [] := by
      rintro rfl
      exact absurd hs' (by decide)
    exact not_of_lastSuffix? hfound hs hne hnil hs'
  rw [hmap, hstrip, sourceMap, hends, lastSuffix?_append hp (List.cons_ne_nil _ _) hlast]
  rfl

end Comment

end ScopedStyles
