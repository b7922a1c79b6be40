import ScopedStyles.Proofs.Comment.SourceMap

/-!
# One source map comment

What a stylesheet is asked for its source map begins as a comment does, ends as one does, and ends
the stylesheet. It is one comment, unless a source map comment runs on: what stands behind it ends
as a comment does, and no other source map comment begins there (`Comment.RunsOn`). Then the rules
between the first end and the last one are taken for a part of the comment
(`Comment.sourceMap_single`).
-/

namespace ScopedStyles

open Text

namespace Comment

variable {css body rest m s : Text}

/-- Whether a comment with this body says where the source map is, blanks around the `#` or not. -/
def namesMap (body : Text) : Bool := (afterSourceMapHead? (opening ++ body)).isSome

/-- Behind a source map comment stands a text that ends as a comment does, blanks apart, and in
which no source map comment begins. The slash that ends the first one could begin another. -/
def RunsOn (css : Text) : Prop :=
  ∃ x body rest, css = x ++ (text body ++ rest) ∧ ¬ includes .exact closing body ∧ namesMap body ∧
    closing <:+ trimEnd rest ∧ ∀ s, s <:+ '/' :: rest → ¬ isSourceMap (trimEnd s)

/-! ## Source map comments -/

theorem afterSourceMapHead?_text_append (body rest : Text) :
    afterSourceMapHead? (text body ++ rest) =
      (afterSourceMapHead? (opening ++ body)).map (· ++ '*' :: '/' :: rest) := by
  have hwhole : text body ++ rest = (opening ++ body) ++ '*' :: '/' :: rest := by
    simp [text, closing]
  have hne : opening ++ body ≠ ['/'] := by
    intro h
    exact absurd (List.cons.inj h).2 (List.cons_ne_nil _ _)
  rw [hwhole, afterSourceMapHead?_append_star hne]

/-- A source map comment ends where a comment does. -/
theorem exists_text_of_isSourceMap (h : isSourceMap m) :
    ∃ body rest, m = text body ++ rest ∧ ¬ includes .exact closing body ∧ namesMap body := by
  obtain ⟨inner, hinner, hclosing⟩ := exists_after?_of_isSourceMap h
  have hcloses : (cut .exact closing inner).isSome :=
    includes_of_isInfix hclosing.isInfix (by decide)
  obtain ⟨⟨body, rest⟩, hcut⟩ := Option.isSome_iff_exists.mp hcloses
  have hread : reader.read m = some (body, rest) := by
    simp only [reader, read, hinner, Option.bind_some, hcut]
  obtain ⟨hm, hbody⟩ := eq_of_read hread
  refine ⟨body, rest, hm, hbody, ?_⟩
  rw [isSourceMap, hm, afterSourceMapHead?_text_append] at h
  rw [namesMap]
  cases hhead : afterSourceMapHead? (opening ++ body) with
  | none => simp [hhead] at h
  | some url => rfl

/-- Behind the head of a source map comment any end of a comment is taken for its end. -/
theorem isSourceMap_text_append (hmap : namesMap body) (hends : closing <:+ rest) :
    isSourceMap (text body ++ rest) := by
  obtain ⟨url, hurl⟩ := Option.isSome_iff_exists.mp hmap
  have hlen := hends.length_le
  have htwo : closing.length = 2 := rfl
  have hsuffix : closing <:+ url ++ '*' :: '/' :: rest := by
    have hbehind : rest <:+ url ++ '*' :: '/' :: rest := ⟨url ++ ['*', '/'], by simp⟩
    exact hends.trans hbehind
  rw [isSourceMap, afterSourceMapHead?_text_append, hurl]
  simp only [Option.map_some, Bool.and_eq_true, decide_eq_true_eq, List.length_append,
    List.length_cons, List.isSuffixOf_iff_suffix]
  constructor
  · omega
  · exact hsuffix

/-! ## The last one -/

/-- The text is a source map comment that ends the stylesheet, and none begins inside it. -/
structure IsLastMap (css m : Text) : Prop where
  map : isSourceMap m
  ends : m <:+ trimEnd css
  last : ∀ s, s <:+ m → s ≠ m → ¬ isSourceMap s

theorem isLastMap_sourceMap (h : sourceMap css ≠ []) : IsLastMap css (sourceMap css) := by
  rw [sourceMap] at h ⊢
  cases hfound : lastSuffix? isSourceMap (trimEnd css) with
  | none =>
    rw [hfound] at h
    exact absurd rfl h
  | some found =>
    obtain ⟨hends, hmap⟩ := suffix_and_of_lastSuffix? hfound
    refine ⟨hmap, hends, ?_⟩
    intro s hs hne hmap'
    exact not_of_lastSuffix? hfound hs hne (isSourceMap_ne_nil hmap') hmap'

namespace IsLastMap

theorem eq_append (h : IsLastMap css m) :
    ∃ x blanks, css = x ++ (m ++ blanks) ∧ ∀ c ∈ blanks, isBlank c := by
  obtain ⟨x, hx⟩ := h.ends
  refine ⟨x, blanksAtEnd css, ?_, fun c hc => isBlank_of_mem_blanksAtEnd hc⟩
  rw [← List.append_assoc, hx, trimEnd_append_blanksAtEnd]

/-- No source map comment that ends the stylesheet is shorter. -/
theorem suffix (h : IsLastMap css m) (hs : s <:+ trimEnd css) (hmap : isSourceMap s) :
    m <:+ s := by
  rcases List.suffix_or_suffix_of_suffix hs h.ends with hs | hm
  · by_cases heq : s = m
    · rw [heq]
    · exact absurd hmap (h.last s hs heq)
  · exact hm

/-- If no source map comment runs on, the last one is closed at its end only. -/
theorem eq_text (h : IsLastMap css m) (hruns : ¬ RunsOn css) :
    ∃ body, m = text body ∧ ¬ includes .exact closing body ∧ namesMap body := by
  obtain ⟨body, rest, hm, hbody, hmap⟩ := exists_text_of_isSourceMap h.map
  obtain ⟨x, blanks, hcss, hblanks⟩ := h.eq_append
  refine ⟨body, ?_, hbody, hmap⟩
  by_contra hne
  have hnil : rest ≠ [] := by
    rintro rfl
    rw [List.append_nil] at hm
    exact hne hm
  have hslash : m = (opening ++ body ++ ['*']) ++ '/' :: rest := by simp [hm, text, closing]
  have hclosed : closing <:+ rest := by
    have hends := closing_suffix_of_isSourceMap h.map
    rw [hslash] at hends
    rcases closing_suffix_of_append hends hnil with hends | ⟨hstar, -⟩
    · exact hends
    · exact absurd hstar (by decide)
  have htrim : trimEnd (rest ++ blanks) = rest := by
    rw [trimEnd_append_of_blanks hblanks, trimEnd_of_closing_suffix hclosed]
  refine hruns ⟨x, body, rest ++ blanks, ?_, hbody, hmap, htrim.symm ▸ hclosed, ?_⟩
  · rw [hcss, hm, List.append_assoc]
  · intro s hs hmaps
    have hbehind := trimEnd_suffix_trimEnd hs (isSourceMap_ne_nil hmaps)
    have htrim' : trimEnd ('/' :: (rest ++ blanks)) = '/' :: rest := by
      rw [← List.cons_append, trimEnd_append_of_blanks hblanks,
        trimEnd_of_closing_suffix (hclosed.trans (List.suffix_cons _ _))]
    rw [htrim'] at hbehind
    refine h.last _ (hbehind.trans ⟨_, hslash.symm⟩) ?_ hmaps
    intro heq
    have hlen := hbehind.length_le
    rw [heq, hslash] at hlen
    simp only [List.length_append, List.length_cons, List.length_nil] at hlen
    omega

/-- If a source map comment runs on, the last one goes on behind an end of a comment. -/
theorem exists_of_runsOn (h : IsLastMap css m) (hruns : RunsOn css) :
    ∃ p q, m = p ++ (closing ++ q) ∧ q ≠ [] := by
  obtain ⟨x, body, rest, rfl, -, hmap, hends, hnone⟩ := hruns
  have htrim : trimEnd (text body ++ rest) = text body ++ trimEnd rest :=
    trimEnd_append_closing (opening ++ body) rest
  have hlong : isSourceMap (text body ++ trimEnd rest) := isSourceMap_text_append hmap hends
  have hm : m <:+ text body ++ trimEnd rest := by
    refine h.suffix ?_ hlong
    rw [← htrim]
    refine trimEnd_suffix_trimEnd (List.suffix_append x _) ?_
    rw [htrim]
    exact isSourceMap_ne_nil hlong
  have hrest : trimEnd rest ≠ [] := by
    intro hnil
    rw [hnil] at hends
    exact absurd (List.suffix_nil.mp hends) (by decide)
  have hend : '*' :: '/' :: trimEnd rest <:+ text body ++ trimEnd rest :=
    ⟨opening ++ body, by simp [text, closing]⟩
  rcases List.suffix_or_suffix_of_suffix hm hend with hm | ⟨p, hp⟩
  · rcases List.suffix_cons_iff.mp hm with heq | ⟨y, hy⟩
    · exact ⟨[], trimEnd rest, heq, hrest⟩
    · -- then it begins behind the star, where none begins
      refine absurd h.map ?_
      have hs : m ++ blanksAtEnd rest <:+ '/' :: rest := by
        refine ⟨y, ?_⟩
        rw [← List.append_assoc, hy, List.cons_append, trimEnd_append_blanksAtEnd]
      have hsame : trimEnd (m ++ blanksAtEnd rest) = m := by
        rw [trimEnd_append_of_blanks fun c hc => isBlank_of_mem_blanksAtEnd hc,
          trimEnd_of_closing_suffix (closing_suffix_of_isSourceMap h.map)]
      have hno := hnone _ hs
      rwa [hsame] at hno
  · exact ⟨p, trimEnd rest, hp.symm, hrest⟩

end IsLastMap

/-! ## Comments that end once -/

/-- The text ends as a comment does nowhere but at its end. -/
def EndsOnce (m : Text) : Prop := ∀ p q, m = p ++ (closing ++ q) → q = []

theorem endsOnce_iff : EndsOnce m ↔ ¬ includes .exact closing m.dropLast := by
  constructor
  · intro h hincludes
    obtain ⟨p, t, hp, hafter⟩ := includes_iff.mp hincludes
    obtain ⟨q, hq⟩ := Option.isSome_iff_exists.mp hafter
    rw [after?_exact.mp hq] at hp
    have hne : m ≠ [] := by
      rintro rfl
      simp [closing] at hp
    have hm : m = p ++ (closing ++ (q ++ [m.getLast hne])) := by
      conv_lhs => rw [← List.dropLast_append_getLast hne, hp]
      simp
    exact List.append_ne_nil_of_right_ne_nil _ (List.cons_ne_nil _ _) (h p _ hm)
  · rintro h p q rfl
    by_contra hq
    refine h (includes_iff.mpr ⟨p, closing ++ q.dropLast, ?_, ?_⟩)
    · rw [← List.append_assoc, List.dropLast_append_of_ne_nil hq, List.append_assoc]
    · rw [after?_append_self]
      rfl

theorem endsOnce_text (hbody : ¬ includes .exact closing body) (hmap : namesMap body) :
    EndsOnce (text body) := by
  have hdrop : (text body).dropLast = '/' :: '*' :: (body ++ ['*']) := by
    have hslash : text body = ('/' :: '*' :: (body ++ ['*'])) ++ ['/'] := by
      simp [text, opening, closing]
    rw [hslash, List.dropLast_concat]
  have hhead : after? .exact closing ('*' :: (body ++ ['*'])) = none := by
    cases body with
    | nil => rfl
    | cons c body =>
      -- blanks or the hash stand behind the star
      have hc : '/' ≠ c := by
        rintro rfl
        have hopen : after? .exact opening (opening ++ '/' :: body) = some ('/' :: body) :=
          after?_append_self .exact opening _
        have htrim : trimStart ('/' :: body) = '/' :: body := trimStart_cons (by decide) _
        simp [namesMap, afterSourceMapHead?, hopen, htrim, after?, Letters.agree] at hmap
      simp [closing, after?, Letters.agree, hc]
  have hbars : Bars .exact closing ['*'] := by decide
  have hslash : after? .exact closing ('/' :: '*' :: (body ++ ['*'])) = none := rfl
  have hstar : includes .exact closing ['*'] = false := by decide
  rw [endsOnce_iff, hdrop, includes_cons, hslash, includes_cons, hhead,
    includes_append_of_bars hbars, hstar]
  simpa using hbody

/-- What a stylesheet is asked for its source map begins and ends as a comment does and ends the
stylesheet, blanks apart, and there is nothing only if no source map comment does that. It is one
comment, which leaves no rules when comments are removed, unless a source map comment runs on. -/
theorem sourceMap_single (css : Text) :
    (sourceMap css = [] ∧ ∀ s, s <:+ css → ¬ isSourceMap (trimEnd s)) ∨
      (opening <+: sourceMap css ∧ closing <:+ sourceMap css ∧
        (∃ x blanks, css = x ++ (sourceMap css ++ blanks) ∧ ∀ c ∈ blanks, isBlank c) ∧
        (EndsOnce (sourceMap css) ↔ ¬ RunsOn css) ∧
        (¬ RunsOn css → strip (sourceMap css) = [])) := by
  by_cases hnil : sourceMap css = []
  · refine .inl ⟨hnil, ?_⟩
    intro s hs hmap
    exact sourceMap_ne_nil hs hmap hnil
  · have hlast := isLastMap_sourceMap hnil
    refine .inr ⟨opening_prefix_of_isSourceMap hlast.map, closing_suffix_of_isSourceMap hlast.map,
      hlast.eq_append, ⟨?_, ?_⟩, ?_⟩
    · intro honce hruns
      obtain ⟨p, q, hm, hq⟩ := hlast.exists_of_runsOn hruns
      exact hq (honce p q hm)
    · intro hruns
      obtain ⟨body, hm, hbody, hmap⟩ := hlast.eq_text hruns
      rw [hm]
      exact endsOnce_text hbody hmap
    · intro hruns
      obtain ⟨body, hm, hbody, -⟩ := hlast.eq_text hruns
      rw [hm, ← List.append_nil (text body), strip_of_read (read_text_append hbody []), strip_nil]

/-- A source map comment in front of rules does not run on if another one is at the end. -/
theorem sourceMap_single_last :
    ¬ RunsOn "/*# sourceMappingURL=x */ a \x7b\x7d /* # sourceMappingURL=y */\n".toList ∧
      strip (sourceMap "/*# sourceMappingURL=x */ a \x7b\x7d /* # sourceMappingURL=y */\n".toList) =
        [] := by
  rcases sourceMap_single "/*# sourceMappingURL=x */ a \x7b\x7d /* # sourceMappingURL=y */\n".toList
    with ⟨hnone, -⟩ | ⟨-, -, -, hiff, hstrip⟩
  · exact absurd hnone (by decide +kernel)
  · have hruns := hiff.mp (endsOnce_iff.mpr (by decide +kernel))
    exact ⟨hruns, hstrip hruns⟩

/-- A source map comment in front of a rule runs on to the end of a later comment, and takes the
rule along. -/
theorem sourceMap_takes_rules :
    ¬ ∀ css : Text, sourceMap css = [] ∨
      (opening <+: sourceMap css ∧ closing <:+ sourceMap css ∧ EndsOnce (sourceMap css) ∧
        (∃ x blanks, css = x ++ (sourceMap css ++ blanks) ∧ ∀ c ∈ blanks, isBlank c) ∧
        strip (sourceMap css) = []) := by
  intro h
  obtain ⟨-, -, honce, -⟩ :=
    (h "/*# sourceMappingURL=x */ a \x7b\x7d /* c */".toList).resolve_left (by decide +kernel)
  exact absurd (endsOnce_iff.mp honce) (by decide +kernel)

end Comment

end ScopedStyles
