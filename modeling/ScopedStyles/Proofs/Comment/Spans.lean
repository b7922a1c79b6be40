import ScopedStyles.Proofs.Sheet.ImportFree
import ScopedStyles.Proofs.Text.Patterns

/-!
# Comments and plain text

A text can be cut into comments and plain text with a scanner that is either outside of comments or
inside one (`Comment.spans`). The two patterns with which comments are found find just these
(`Comment.scan_pattern`, `Comment.scan_blankPattern`), so that removing comments removes them and
nothing else, whether those that name a source are kept or not (`Comment.strips_spans`).
-/

namespace ScopedStyles

open Text

namespace Comment

variable {t rest body seen : Text}

/-! ## A scanner -/

/-- Where a scanner is. -/
inductive Mode where
  /-- Outside of comments. -/
  | outside
  /-- In a comment, of which this much has been seen. -/
  | inside (seen : Text)

/-- The comments of a text and the characters between them, from where the scanner is. A comment
that does not end is no comment. -/
def spansFrom : Mode → Text → List (Piece Text)
  | .outside, [] => []
  | .outside, '/' :: '*' :: t => spansFrom (.inside opening) t
  | .outside, c :: t => .plain c :: spansFrom .outside t
  | .inside seen, [] => seen.map .plain
  | .inside seen, '*' :: '/' :: t => .found (seen ++ closing) :: spansFrom .outside t
  | .inside seen, c :: t => spansFrom (.inside (seen ++ [c])) t

/-- The comments of a text, as they are written, and the characters between them. -/
def spans (t : Text) : List (Piece Text) := spansFrom .outside t

theorem spansFrom_outside_cons {c : Char} (h : after? .exact opening (c :: t) = none) :
    spansFrom .outside (c :: t) = .plain c :: spansFrom .outside t := by
  rw [spansFrom]
  rintro u rfl rfl
  cases h

theorem spansFrom_inside_cons {c : Char} (h : after? .exact closing (c :: t) = none) :
    spansFrom (.inside seen) (c :: t) = spansFrom (.inside (seen ++ [c])) t := by
  rw [spansFrom]
  rintro u rfl rfl
  cases h

/-- A comment goes on to its first end. -/
theorem spansFrom_inside_of_cut (h : cut .exact closing t = some (body, rest)) (seen : Text) :
    spansFrom (.inside seen) t = .found (seen ++ body ++ closing) :: spansFrom .outside rest := by
  induction t generalizing body seen with
  | nil => cases h
  | cons c t ih =>
    rw [cut] at h
    split at h
    · rename_i behind hafter
      obtain ⟨rfl, rfl⟩ := Prod.mk.inj (Option.some.inj h)
      rw [after?_exact.mp hafter, List.append_nil]
      rfl
    · rename_i hafter
      obtain ⟨⟨before, behind⟩, hcut, heq⟩ := Option.map_eq_some_iff.mp h
      obtain ⟨rfl, rfl⟩ := Prod.mk.inj heq
      rw [spansFrom_inside_cons hafter, ih hcut]
      simp

/-- Without an end all of it is plain text. -/
theorem spansFrom_inside_of_not_includes (h : ¬ includes .exact closing t) (seen : Text) :
    spansFrom (.inside seen) t = (seen ++ t).map .plain := by
  induction t generalizing seen with
  | nil => rw [spansFrom, List.append_nil]
  | cons c t ih =>
    have hbehind := not_includes_of_isInfix (List.suffix_cons c t).isInfix h
    rw [spansFrom_inside_cons (after?_eq_none_of_not_includes h (List.suffix_refl _)), ih hbehind,
      List.append_assoc, List.singleton_append]

/-- The scanner finds what is read as a comment. -/
theorem spans_eq_map_scan (t : Text) : spans t = (reader.scan t).map (Piece.map text) := by
  unfold spans
  fun_induction Reader.scan reader t with
  | case1 => rfl
  | case2 c t body rest hread ih =>
    obtain ⟨inner, hopen, hcut⟩ := Option.bind_eq_some_iff.mp hread
    rw [after?_exact.mp hopen]
    show spansFrom (.inside opening) inner = _
    rw [spansFrom_inside_of_cut hcut, ih]
    rfl
  | case3 c t hread ih =>
    cases hopen : after? .exact opening (c :: t) with
    | none =>
      rw [spansFrom_outside_cons hopen, ih]
      rfl
    | some inner =>
      obtain ⟨rfl, rfl⟩ : c = '/' ∧ t = '*' :: inner := List.cons.inj (after?_exact.mp hopen)
      have hnone := not_includes_closing_of_read hread
      show spansFrom (.inside opening) inner = _
      rw [spansFrom_inside_of_not_includes hnone,
        Reader.scan_of_none (read_cons_of_ne (by decide) inner),
        scan_of_not_includes_closing hnone, List.map_cons, List.map_cons, List.map_map]
      rfl

/-- The comments and what is between them make up the text. -/
theorem flatMap_spans (t : Text) : (spans t).flatMap (Reader.writePiece id) = t := by
  rw [spans_eq_map_scan, Reader.flatMap_writePiece_map, Function.id_comp]
  exact substitute_text t

/-! ## Two patterns -/

/-- Any characters, as few as possible, up to the end of a comment. -/
def toClosing : Pattern := .andThen (.few fun _ => true) (.word closing)

/-- A comment. -/
def pattern : Pattern := .andThen (.word opening) toClosing

/-- A comment, with the blanks at its beginning apart. -/
def blankPattern : Pattern := .andThen (.word opening) (.andThen (.many isBlank) toClosing)

theorem consumes_pattern : pattern.Consumes := Pattern.consumes_word_andThen (by decide) toClosing

theorem consumes_blankPattern : blankPattern.Consumes :=
  Pattern.consumes_word_andThen (by decide) (.andThen (.many isBlank) toClosing)

theorem map_snd_read (t : Text) : (reader.read t).map Prod.snd =
    (after? .exact opening t).bind fun inner => (cut .exact closing inner).map Prod.snd :=
  Option.map_bind

theorem head?_ends_pattern (t : Text) :
    (pattern.ends t).head? = (reader.read t).map Prod.snd := by
  rw [map_snd_read, pattern, Pattern.head?_ends_word_andThen]
  exact congrArg _ (funext fun inner => Pattern.head?_ends_few_word closing inner)

/-- That blanks are taken first, and given back, makes no difference: none of them begins the end of
a comment. -/
theorem head?_ends_blankPattern (t : Text) :
    (blankPattern.ends t).head? = (reader.read t).map Prod.snd := by
  have hblank : ∀ c, isBlank c → c ≠ '*' := by
    rintro c hc rfl
    exact absurd hc (by decide)
  rw [map_snd_read, blankPattern, Pattern.head?_ends_word_andThen]
  exact congrArg _ (funext fun inner => Pattern.head?_ends_many_few_word hblank ['/'] inner)

theorem scan_pattern (t : Text) : (pattern.reader consumes_pattern).scan t = spans t := by
  rw [spans_eq_map_scan]
  exact Pattern.scan_reader_eq consumes_pattern head?_ends_pattern
    (fun _ _ _ hread => (eq_of_read hread).1) t

theorem scan_blankPattern (t : Text) :
    (blankPattern.reader consumes_blankPattern).scan t = spans t := by
  rw [spans_eq_map_scan]
  exact Pattern.scan_reader_eq consumes_blankPattern head?_ends_blankPattern
    (fun _ _ _ hread => (eq_of_read hread).1) t

/-! ## Comments that name a source -/

/-- What stands behind the `#` and blanks of a comment that says where something is. -/
def sourceNames : List Text := ["sourceURL=".toList, "sourceMappingURL=".toList]

/-- The comment says where the stylesheet or its source map is. -/
def NamesSource (comment : Text) : Prop :=
  ∃ blanks name : Text, (∀ c ∈ blanks, isBlank c) ∧ name ∈ sourceNames ∧
    "/*#".toList ++ (blanks ++ name) <+: comment

/-- What a comment that names a source begins with. -/
def sourcePattern : Pattern :=
  .andThen (.word "/*#".toList) (.andThen (.many isBlank)
    (.andThen (.either (.word "sourceURL".toList) (.word "sourceMappingURL".toList))
      (.word ['='])))

theorem sourcePattern_ends_ne_nil (comment : Text) :
    sourcePattern.ends comment ≠ [] ↔ NamesSource comment := by
  have hmem : sourcePattern.ends comment ≠ [] ↔ ∃ rest, rest ∈ sourcePattern.ends comment :=
    ⟨List.exists_mem_of_ne_nil _, fun ⟨_, h⟩ => List.ne_nil_of_mem h⟩
  rw [hmem]
  simp only [sourcePattern, Pattern.mem_ends_andThen, Pattern.mem_ends_word,
    Pattern.mem_ends_many, Pattern.mem_ends_either]
  constructor
  · rintro ⟨rest, -, rfl, -, ⟨blanks, rfl, hblanks⟩, -, rfl | rfl, rfl⟩
    · exact ⟨blanks, _, hblanks, List.mem_cons_self, rest, by simp⟩
    · exact ⟨blanks, _, hblanks, List.mem_cons_of_mem _ List.mem_cons_self, rest, by simp⟩
  · rintro ⟨blanks, name, hblanks, hname, rest, rfl⟩
    refine ⟨rest, blanks ++ (name ++ rest), by simp, name ++ rest, ⟨blanks, rfl, hblanks⟩,
      '=' :: rest, ?_, rfl⟩
    rcases List.mem_pair.mp hname with rfl | rfl
    · exact .inl (by simp)
    · exact .inr (by simp)

instance (comment : Text) : Decidable (NamesSource comment) :=
  decidable_of_iff _ (sourcePattern_ends_ne_nil comment)

theorem exists_of_mem_sourceNames {name : Text} (h : name ∈ sourceNames) :
    ∃ u, name = 's' :: u ∧ '*' ∉ u := by
  rcases List.mem_pair.mp h with rfl | rfl
  · exact ⟨_, rfl, by decide⟩
  · exact ⟨_, rfl, by decide⟩

theorem namesSource_cons (b : Text) :
    namesSource ('#' :: b) ↔ ∃ name ∈ sourceNames, name <+: trimStart b := by
  simp only [namesSource, sourceNames, Bool.or_eq_true, Option.isSome_iff_exists, after?_exact,
    List.exists_mem_cons_iff, List.not_mem_nil, false_and, exists_false, or_false]
  simp only [List.IsPrefix, eq_comm]

/-- Whether a comment names a source is seen from its body. -/
theorem namesSource_iff (body : Text) : namesSource body ↔ NamesSource (text body) := by
  constructor
  · intro h
    obtain ⟨b, rfl⟩ : ∃ b, body = '#' :: b := by
      unfold namesSource at h
      split at h
      · exact ⟨_, rfl⟩
      · exact absurd h Bool.false_ne_true
    obtain ⟨name, hname, rest, hrest⟩ := (namesSource_cons b).mp h
    refine ⟨b.takeWhile isBlank, name, fun c hc => List.mem_takeWhile_imp hc, hname,
      rest ++ closing, ?_⟩
    calc "/*#".toList ++ (b.takeWhile isBlank ++ name) ++ (rest ++ closing)
        = "/*#".toList ++ (b.takeWhile isBlank ++ (name ++ rest)) ++ closing := by simp
      _ = "/*#".toList ++ b ++ closing := by
        rw [hrest, trimStart, List.takeWhile_append_dropWhile]
      _ = text ('#' :: b) := rfl
  · rintro ⟨blanks, name, hblanks, hname, rest, hrest⟩
    obtain ⟨u, rfl, hu⟩ := exists_of_mem_sourceNames hname
    have htext : opening ++ ('#' :: (blanks ++ 's' :: u) ++ rest) = opening ++ (body ++ closing) :=
      hrest.trans (List.append_assoc opening body closing)
    have hbody : '#' :: (blanks ++ 's' :: u) ++ rest = body ++ '*' :: ['/'] :=
      List.append_cancel_left htext
    have hstar : '*' ∉ '#' :: (blanks ++ 's' :: u) := by
      have hblank : '*' ∉ blanks := not_mem_of_blanks hblanks (by decide)
      simp [hblank, hu]
    obtain ⟨behind, rfl⟩ := isPrefix_of_append_cons ⟨rest, hbody⟩ hstar
    refine (namesSource_cons (blanks ++ 's' :: u ++ behind)).mpr ⟨'s' :: u, hname, behind, ?_⟩
    rw [List.append_assoc, trimStart_append_of_blanks hblanks, List.cons_append,
      trimStart_cons (by decide)]

/-! ## Removing comments -/

/-- Comments are removed as the scanner finds them. -/
theorem strip_eq_flatMap_spans (t : Text) :
    strip t = (spans t).flatMap (Reader.writePiece fun _ => []) := by
  rw [spans_eq_map_scan, Reader.flatMap_writePiece_map]
  rfl

/-- Comments are removed or kept as the scanner finds them. -/
theorem stripUnlessSource_eq_flatMap_spans (t : Text) :
    stripUnlessSource t =
      (spans t).flatMap (Reader.writePiece fun c => if NamesSource c then c else []) := by
  have hwrite : (fun body => if namesSource body then text body else []) =
      (fun c => if NamesSource c then c else []) ∘ text := by
    funext body
    simp only [namesSource_iff, Function.comp_apply]
  rw [spans_eq_map_scan, Reader.flatMap_writePiece_map, ← hwrite]
  rfl

/-- The two patterns find the comments that the scanner finds. Removing comments leaves what is
between them and nothing else, or also those comments that name a source; what is left then is the
style, if it has no import. -/
theorem strips_spans (t : Text) :
    (spans t).flatMap (Reader.writePiece id) = t ∧
      (blankPattern.reader consumes_blankPattern).scan t = spans t ∧
      (pattern.reader consumes_pattern).scan t = spans t ∧
      strip t = (spans t).flatMap (Reader.writePiece fun _ => []) ∧
      stripUnlessSource t =
        (spans t).flatMap (Reader.writePiece fun c => if NamesSource c then c else []) ∧
      ∀ base, ¬ includes .exact Import.keyword (stripUnlessSource t) →
        (Import.extract base t).style = stripUnlessSource t := by
  refine ⟨flatMap_spans t, scan_blankPattern t, scan_pattern t, strip_eq_flatMap_spans t,
    stripUnlessSource_eq_flatMap_spans t, fun base h => ?_⟩
  exact Reader.substitute_of_not_includes Import.awaitsLiteral_reader h _

/-- A comment cannot end with the star that it begins with, and the last one does not end. -/
theorem strips_spans_open :
    let t := "/*/ a */b/* # sourceURL=x */c/*#\n sourceURL=y **/ /*/".toList
    strip t = "bc /*/".toList ∧ stripUnlessSource t = "bc/*#\n sourceURL=y **/ /*/".toList ∧
      (Import.extract "a.css".toList t).style = "bc/*#\n sourceURL=y **/ /*/".toList := by
  intro t
  obtain ⟨-, -, -, hstrip, hunless, hstyle⟩ := strips_spans t
  have hkept : stripUnlessSource t = "bc/*#\n sourceURL=y **/ /*/".toList :=
    hunless.trans (by decide +kernel)
  exact ⟨hstrip.trans (by decide +kernel), hkept,
    (hstyle "a.css".toList (by decide +kernel)).trans hkept⟩

end Comment

end ScopedStyles
