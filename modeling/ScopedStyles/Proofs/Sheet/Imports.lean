import ScopedStyles.Proofs.Sheet.ImportFree
import ScopedStyles.Proofs.Text.Scans

/-!
# Import statements

An import statement names its url in quotes, behind `url(`, or both, and may say for which media it
is. Each is read as it is written, up to its semicolon (`Import.Statement.IsWritten.read_text`), so
that from a stylesheet just those are taken out that can be followed (`Import.extract_parts`).
-/

namespace ScopedStyles

open Text

namespace Import

/-! ## Statements as they are written -/

/-- What a url can be put in. -/
inductive Quote where
  /-- A single quote. -/
  | single
  /-- A double quote. -/
  | double
  deriving DecidableEq, Repr

/-- The character on both sides of the url. -/
def Quote.char : Quote → Char
  | single => '\''
  | double => '"'

/-- How a url is written in an import statement. -/
inductive Spelling where
  /-- In quotes. -/
  | string (q : Quote)
  /-- In the parentheses behind `url`, with or without quotes. -/
  | function (q : Option Quote)
  deriving DecidableEq, Repr

namespace Spelling

/-- What is written in front of the url. -/
def front : Spelling → Text
  | string q => [q.char]
  | function q => "url(".toList ++ (q.map Quote.char).toList

/-- What is written behind the url. -/
def back : Spelling → Text
  | string q => [q.char]
  | function q => (q.map Quote.char).toList ++ [')']

end Spelling

/-- An import statement, by its parts. -/
structure Statement where
  /-- How the url is written. -/
  spelling : Spelling
  /-- The url. -/
  url : Text
  /-- What stands behind the url, such as the media that the import is for. -/
  media : Text
  deriving DecidableEq, Repr

/-- Whether a character ends a url in some spelling. -/
def endsUrl (c : Char) : Bool := isBlank c || c ∈ ['\'', '"', ')', ';']

namespace Statement

/-- An import statement as it stands in a stylesheet. -/
def text (s : Statement) : Text :=
  keyword ++ ' ' :: (s.spelling.front ++ (s.url ++ (s.spelling.back ++ (s.media ++ [';']))))

/-- There is a url, the statement ends with its semicolon, and no comment begins in it. -/
structure IsWritten (s : Statement) : Prop where
  url_ne_nil : s.url ≠ []
  not_endsUrl : ∀ c ∈ s.url, ¬ endsUrl c
  not_mem_media : ';' ∉ s.media
  url_lacks : Lacks [(.exact, Comment.opening)] s.url
  media_lacks : Lacks [(.exact, Comment.opening)] s.media

variable {s : Statement}

/-! ## Reading a statement -/

theorem inQuotes_of_not_endsUrl {c : Char} (h : ¬ endsUrl c) : inQuotes c := by
  simp only [endsUrl, Bool.or_eq_true, decide_eq_true_eq, List.mem_cons] at h
  simp only [inQuotes, Bool.and_eq_true, bne_iff_ne]
  exact ⟨fun hc => h (by simp [hc]), fun hc => h (by simp [hc])⟩

theorem inBareUrl_of_not_endsUrl {c : Char} (h : ¬ endsUrl c) : inBareUrl c := by
  simp only [endsUrl, Bool.or_eq_true, decide_eq_true_eq, List.mem_cons] at h
  simp only [inBareUrl, Bool.and_eq_true, bne_iff_ne, Bool.not_eq_true']
  exact ⟨⟨fun hc => h (by simp [hc]), fun hc => h (by simp [hc])⟩,
    Bool.eq_false_iff.mpr fun hc => h (by simp [hc])⟩

/-- A quoted url is read up to its quote. -/
theorem splitUrl_quote (q : Quote) {url : Text} (hurl : ∀ c ∈ url, ¬ endsUrl c) (t : Text) :
    splitUrl (q.char :: (url ++ q.char :: t)) = (url, q.char :: t) := by
  have hin : ∀ c ∈ url, inQuotes c := fun c hc => inQuotes_of_not_endsUrl (hurl c hc)
  have hout : inQuotes q.char = false := by cases q <;> rfl
  have hsplit : splitUrl (q.char :: (url ++ q.char :: t)) =
      ((url ++ q.char :: t).takeWhile inQuotes, (url ++ q.char :: t).dropWhile inQuotes) := by
    cases q <;> rfl
  rw [hsplit, List.takeWhile_append_of_pos hin, List.dropWhile_append_of_pos hin,
    List.takeWhile_cons, List.dropWhile_cons, hout]
  simp

/-- A url without quotes is read up to the closing parenthesis. -/
theorem splitUrl_bare {url : Text} (hne : url ≠ []) (hurl : ∀ c ∈ url, ¬ endsUrl c) (t : Text) :
    splitUrl (url ++ ')' :: t) = (url, ')' :: t) := by
  have hin : ∀ c ∈ url, inBareUrl c := fun c hc => inBareUrl_of_not_endsUrl (hurl c hc)
  have hout : inBareUrl ')' = false := rfl
  have hsplit : splitUrl (url ++ ')' :: t) =
      ((url ++ ')' :: t).takeWhile inBareUrl, (url ++ ')' :: t).dropWhile inBareUrl) := by
    cases url with
    | nil => exact absurd rfl hne
    | cons c url =>
      have hc := inQuotes_of_not_endsUrl (hurl c List.mem_cons_self)
      rw [List.cons_append, splitUrl]
      · rintro u ⟨⟩
        exact absurd hc (by decide)
      · rintro u ⟨⟩
        exact absurd hc (by decide)
  rw [hsplit, List.takeWhile_append_of_pos hin, List.dropWhile_append_of_pos hin,
    List.takeWhile_cons, List.dropWhile_cons, hout]
  simp

theorem afterStatement_append {t : Text} (h : ';' ∉ t) (u : Text) :
    afterStatement (t ++ ';' :: u) = u := by
  have hall : ∀ c ∈ t, (c != ';') = true := fun c hc => bne_iff_ne.mpr (ne_of_mem_of_not_mem hc h)
  rw [afterStatement, List.dropWhile_append_of_pos hall]
  rfl

theorem afterKeyword?_append (t : Text) :
    afterKeyword? (keyword ++ ' ' :: t) =
      some (trimStart ((after? .exact "url(".toList (trimStart t)).getD (trimStart t))) := by
  have hkeyword : after? .exact "@import".toList (keyword ++ ' ' :: t) = some (' ' :: t) :=
    after?_append_self .exact keyword _
  have hblank : isBlank ' ' = true := rfl
  have htrim : trimStart (' ' :: t) = trimStart t := List.dropWhile_cons_of_pos hblank
  rw [afterKeyword?, hkeyword, Option.bind_eq_bind, Option.bind_some,
    List.takeWhile_cons_of_pos hblank, if_neg (List.cons_ne_nil _ _), htrim]
  rfl

theorem not_isBlank_char (q : Quote) : ¬ isBlank q.char := by cases q <;> decide

/-- In every spelling the url is what is found behind what is written in front of it. -/
theorem IsWritten.splitUrl_afterKeyword? (h : s.IsWritten) (t : Text) :
    (afterKeyword? (keyword ++ ' ' :: (s.spelling.front ++ (s.url ++ (s.spelling.back ++ t))))).map
      splitUrl = some (s.url, s.spelling.back ++ t) := by
  rw [afterKeyword?_append, Option.map_some]
  refine congrArg some ?_
  cases s.spelling with
  | string q =>
    have hnone : after? .exact "url(".toList (q.char :: (s.url ++ q.char :: t)) = none := by
      cases q <;> rfl
    have htrim := trimStart_cons (not_isBlank_char q) (s.url ++ q.char :: t)
    rw [Spelling.front, Spelling.back, List.singleton_append, List.singleton_append, htrim, hnone,
      Option.getD_none, htrim, splitUrl_quote q h.not_endsUrl]
  | function q =>
    have hfront : ∀ u, after? .exact "url(".toList (trimStart ("url(".toList ++ u)) = some u :=
      fun u => after?_append_self .exact "url(".toList u
    rw [Spelling.front, Spelling.back, List.append_assoc, hfront, Option.getD_some]
    cases q with
    | none =>
      have hhead : ∀ c ∈ (s.url ++ ')' :: t).head?, ¬ isBlank c := by
        intro c hc
        rw [List.head?_append_of_ne_nil _ h.url_ne_nil] at hc
        have hends := h.not_endsUrl c (List.mem_of_mem_head? hc)
        exact fun hblank => hends (by simp [endsUrl, hblank])
      exact (congrArg splitUrl (trimStart_eq_self hhead)).trans
        (splitUrl_bare h.url_ne_nil h.not_endsUrl t)
    | some q =>
      exact (congrArg splitUrl (trimStart_cons (not_isBlank_char q) _)).trans
        (splitUrl_quote q h.not_endsUrl (')' :: t))

theorem not_mem_back (spelling : Spelling) : ';' ∉ spelling.back := by
  rcases spelling with (_ | _) | (_ | _ | _) <;> decide

/-- An import statement is read as it is written. -/
theorem IsWritten.read_text (h : s.IsWritten) (u : Text) :
    read (s.text ++ u) = some (⟨s.url, s.text⟩, u) := by
  have htext : s.text ++ u = keyword ++
      ' ' :: (s.spelling.front ++ (s.url ++ (s.spelling.back ++ (s.media ++ ';' :: u)))) := by
    simp [text]
  obtain ⟨behind, hbehind, hsplit⟩ := Option.map_eq_some_iff.mp
    (h.splitUrl_afterKeyword? (s.media ++ ';' :: u))
  have hend : afterStatement (s.spelling.back ++ (s.media ++ ';' :: u)) = u := by
    rw [← List.append_assoc]
    refine afterStatement_append (fun hmem => ?_) u
    exact (List.mem_append.mp hmem).elim (not_mem_back s.spelling) h.not_mem_media
  have htake : (s.text ++ u).take ((s.text ++ u).length - u.length) = s.text := by
    rw [List.length_append, Nat.add_sub_cancel, List.take_left]
  rw [← htext] at hbehind
  rw [read, hbehind, Option.bind_eq_bind, Option.bind_some, hsplit]
  simp only [hend, htake]
  rfl

/-! ## No comments -/

/-- No comment begins in an import statement. -/
theorem IsWritten.lacks_text (h : s.IsWritten) : Lacks [(.exact, Comment.opening)] s.text := by
  have hfront : ∀ c ∈ keyword ++ ' ' :: s.spelling.front,
      Divides [(.exact, Comment.opening)] c := by
    rcases s.spelling with (_ | _) | (_ | _ | _) <;> decide
  have hback : ∀ c ∈ s.spelling.back, Divides [(.exact, Comment.opening)] c := by
    rcases s.spelling with (_ | _) | (_ | _ | _) <;> decide
  obtain ⟨c, back, heq⟩ : ∃ c back, s.spelling.back = c :: back := by
    rcases s.spelling with _ | (_ | _) <;> exact ⟨_, _, rfl⟩
  have htext : s.text = (keyword ++ ' ' :: s.spelling.front) ++
      (s.url ++ c :: (back ++ (s.media ++ [';']))) := by
    simp [text, heq]
  rw [heq, List.forall_mem_cons] at hback
  rw [htext, lacks_append_of_divides hfront, lacks_append_cons hback.1,
    lacks_append_of_divides hback.2]
  exact ⟨h.url_lacks, lacks_append_right_of_divides (by decide) h.media_lacks⟩

end Statement

/-! ## Stylesheets in parts -/

/-- A part of a stylesheet. -/
inductive Part where
  /-- Some text without import statements. -/
  | chunk (t : Text)
  /-- An import statement. -/
  | statement (s : Statement)
  deriving DecidableEq, Repr

namespace Part

/-- A part as it stands in a stylesheet. -/
def text : Part → Text
  | chunk t => t
  | statement s => s.text

/-- An import statement is written as one, and a text holds none, nor does a comment begin in it. -/
def IsWritten : Part → Prop
  | chunk t => Lacks [(.exact, keyword), (.exact, Comment.opening)] t
  | statement s => s.IsWritten

/-- One part may follow the other: two texts in a row would be one text. -/
def MayFollow : Part → Part → Prop
  | chunk _, chunk _ => False
  | _, _ => True

/-- What is left of a part when the imports that can be followed are taken out. -/
def left : Part → Text
  | chunk t => t
  | statement s => if Url.isResolvable s.url then [] else s.text

/-- The url that a part adds to those that the stylesheet at `base` imports. -/
def imported (base : Text) : Part → List Text
  | chunk _ => []
  | statement s => if Url.isResolvable s.url then [Url.resolve base s.url] else []

/-- What a part is cut into where import statements are looked for. -/
def pieces : Part → List (Piece Import)
  | chunk t => t.map .plain
  | statement s => [.found ⟨s.url, s.text⟩]

end Part

variable {parts : List Part}

/-- Behind a text comes a statement or nothing, which completes neither of the two. -/
theorem bars_flatMap_text {t : Text} (h : (Part.chunk t :: parts).IsChain Part.MayFollow) :
    Bars .exact keyword (parts.flatMap Part.text) ∧
      Bars .exact Comment.opening (parts.flatMap Part.text) := by
  cases parts with
  | nil => exact ⟨bars_nil, bars_nil⟩
  | cons part parts =>
    cases part with
    | chunk u => exact absurd (List.isChain_cons_cons.mp h).1 id
    | statement s => exact ⟨bars_cons (by decide) _, bars_cons (by decide) _⟩

/-- No comment begins in a stylesheet, or between its parts. -/
theorem lacks_flatMap_text (h : parts.IsChain Part.MayFollow) (hparts : ∀ p ∈ parts, p.IsWritten) :
    ¬ includes .exact Comment.opening (parts.flatMap Part.text) := by
  induction parts with
  | nil => decide
  | cons part parts ih =>
    obtain ⟨hpart, hothers⟩ := List.forall_mem_cons.mp hparts
    have hrest := ih h.tail hothers
    rw [List.flatMap_cons]
    cases part with
    | chunk t =>
      have ht : ¬ includes .exact Comment.opening t := hpart (.exact, Comment.opening) (by simp)
      rw [Part.text, includes_append_of_bars (bars_flatMap_text h).2, Bool.or_eq_true]
      exact not_or.mpr ⟨ht, hrest⟩
    | statement s =>
      obtain ⟨init, hinit⟩ : ∃ init, s.text = init ++ [';'] :=
        ⟨keyword ++ ' ' :: (s.spelling.front ++ (s.url ++ (s.spelling.back ++ s.media))),
          by simp [Statement.text]⟩
      have hlacks := (Statement.IsWritten.lacks_text hpart).of_isInfix
        (hinit ▸ (List.prefix_append init [';']).isInfix)
      rw [Part.text, hinit, List.append_assoc, List.singleton_append]
      exact lacks_singleton.mp
        ((lacks_append_cons (by decide) init _).mpr ⟨hlacks, lacks_singleton.mpr hrest⟩)

/-- The parts are told apart: each statement is found, and nothing else. -/
theorem scan_flatMap_text (h : parts.IsChain Part.MayFollow) (hparts : ∀ p ∈ parts, p.IsWritten) :
    reader.scan (parts.flatMap Part.text) = parts.flatMap Part.pieces := by
  induction parts with
  | nil => exact reader.scan_nil
  | cons part parts ih =>
    obtain ⟨hpart, hothers⟩ := List.forall_mem_cons.mp hparts
    have hscans : reader.Scans part.text (parts.flatMap Part.text) part.pieces := by
      cases part with
      | chunk t =>
        have ht : ¬ includes .exact keyword t := hpart (.exact, keyword) List.mem_cons_self
        exact (awaitsLiteral_reader.passes ht (bars_flatMap_text h).1).scans
      | statement s => exact Reader.scans_of_read (hpart.read_text _)
    rw [List.flatMap_cons, List.flatMap_cons, ← ih h.tail hothers]
    exact hscans

/-- The import statements that can be followed are taken out, and no others. Their urls are resolved
in order. -/
theorem extract_parts (base : Text) (h : parts.IsChain Part.MayFollow)
    (hparts : ∀ p ∈ parts, p.IsWritten) :
    extract base (parts.flatMap Part.text) =
      { style := parts.flatMap Part.left, urls := parts.flatMap (Part.imported base) } := by
  have hstrip : Comment.stripUnlessSource (parts.flatMap Part.text) = parts.flatMap Part.text :=
    Reader.substitute_of_not_includes Comment.awaitsLiteral_reader (lacks_flatMap_text h hparts) _
  have hleft : ∀ p : Part, p.pieces.flatMap (Reader.writePiece fun i : Import =>
      if Url.isResolvable i.url then [] else i.statement) = p.left := by
    rintro (t | s)
    · exact Reader.flatMap_writePiece_plain _ t
    · simp [Part.pieces, Reader.writePiece, Part.left]
  have himported : ∀ p : Part, ((p.pieces.flatMap Reader.foundIn).filter fun i =>
      Url.isResolvable i.url).map (fun i => Url.resolve base i.url) = p.imported base := by
    rintro (t | s)
    · simp [Part.pieces, Part.imported]
    · by_cases hs : Url.isResolvable s.url <;>
        simp [Part.pieces, Reader.foundIn, Part.imported, hs]
  have hstyle : reader.substitute (fun i => if Url.isResolvable i.url then [] else i.statement)
      (parts.flatMap Part.text) = parts.flatMap Part.left := by
    rw [Reader.substitute_eq_flatMap, scan_flatMap_text h hparts, List.flatMap_assoc]
    exact List.flatMap_congr fun p _ => hleft p
  have hurls : ((reader.found (parts.flatMap Part.text)).filter fun i =>
      Url.isResolvable i.url).map (fun i => Url.resolve base i.url) =
        parts.flatMap (Part.imported base) := by
    rw [Reader.found_eq_flatMap, scan_flatMap_text h hparts, List.flatMap_assoc,
      List.filter_flatMap, List.map_flatMap]
    exact List.flatMap_congr fun p _ => himported p
  rw [extract, hstrip, hstyle, hurls]

/-- Two imports that can be followed, one of them spelled in both ways at once, around one that
cannot, which is left in place. -/
theorem extract_parts_media :
    extract "package:a/b.css".toList
        "@import url(\"../c.css\") screen;@import '/d.css';e \x7b\x7d @import url(f.css);".toList =
      { style := "@import '/d.css';e \x7b\x7d ".toList
        urls := ["package:c.css".toList, "package:a/f.css".toList] } := by
  have hcss :
      "@import url(\"../c.css\") screen;@import '/d.css';e \x7b\x7d @import url(f.css);".toList = [
        .statement ⟨.function (some .double), "../c.css".toList, " screen".toList⟩,
        .statement ⟨.string .single, "/d.css".toList, []⟩, .chunk "e \x7b\x7d ".toList,
        .statement ⟨.function none, "f.css".toList, []⟩].flatMap Part.text := by decide +kernel
  have hchunk : Lacks [(.exact, keyword), (.exact, Comment.opening)] "e \x7b\x7d ".toList := by
    decide +kernel
  rw [hcss, extract_parts _ (by simp [Part.MayFollow])]
  · decide +kernel
  · simp only [List.forall_mem_cons]
    refine ⟨⟨by decide, by decide, by decide, by decide, by decide⟩,
      ⟨by decide, by decide, by decide, by decide, by decide⟩, hchunk,
      ⟨by decide, by decide, by decide, by decide, by decide⟩, nofun⟩

end Import

end ScopedStyles
