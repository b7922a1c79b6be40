import ScopedStyles.Proofs.Directive.Reading

/-!
# Stylesheets with directives

A stylesheet as a list of items: plain texts, and directives in the one form that is documented.
The passes for the three directives go over the whole text one after the other, and each of them
reads what those before it have written. Still the items are expanded one by one
(`extractUnscoped_expand_items`), for a pass reads its own directives to their end and no further
(`Use.read_text_append`) and passes over everything else (`Use.passes_after`).
-/

namespace ScopedStyles.Directive

open Text

/-! ## Items -/

/-- A selector between quotes. -/
structure Quoted where
  /-- Which of the two kinds of quotes. -/
  isDouble : Bool
  /-- The selector. -/
  value : Text
  deriving DecidableEq, Repr

/-- The quote. -/
def Quoted.mark (q : Quoted) : Char := if q.isDouble then '"' else '\''

/-- A selector with its quotes. -/
def Quoted.text (q : Quoted) : Text := q.mark :: (q.value ++ [q.mark])

/-- The declaration of a selector. -/
def Quoted.declaration (q : Quoted) : Text := "content: ".toList ++ q.text

/-- A directive in a stylesheet. -/
inductive Use where
  /-- The selector goes in the place of the next one. -/
  | nextSelector (selector : Quoted) (replaced : Text)
  /-- A rule with this selector and these declarations. -/
  | rule (isScoped : Bool) (selector : Quoted) (declarations : Text)
  deriving DecidableEq, Repr

namespace Use

/-- The directive that is used. -/
def kind : Use → Directive
  | nextSelector _ _ => .nextSelector
  | rule true _ _ => .rule
  | rule false _ _ => .unscopedRule

/-- What is written behind the keyword. -/
def block : Use → Text
  | nextSelector s replaced => " \x7b".toList ++ (s.declaration ++ '}' :: (replaced ++ ['{']))
  | rule _ s declarations => " \x7b".toList ++ (s.declaration ++ ';' :: (declarations ++ ['}']))

/-- A directive as it is written. -/
def text (u : Use) : Text := u.kind.keyword ++ u.block

/-- What a directive stands for. -/
def result : Use → Text
  | nextSelector s _ => s.value ++ ['{']
  | rule _ s declarations => s.value ++ " \x7b;".toList ++ declarations ++ ['}']

end Use

/-- A part of a stylesheet. -/
inductive Item where
  /-- Text without directives. -/
  | plain (text : Text)
  /-- A directive, and text without directives behind it. -/
  | directive (use : Use) (behind : Text)
  deriving DecidableEq, Repr

namespace Item

/-- An item as it is written. -/
def text : Item → Text
  | plain t => t
  | directive u t => u.text ++ t

/-- What stays of an item in its place: of an unscoped rule nothing. -/
def own : Item → Text
  | plain t => t
  | directive u t => (if u.kind = unscopedRule then [] else u.result) ++ t

/-- The unscoped rule of an item, and a blank line. -/
def unscoped : Item → Text
  | plain _ => []
  | directive u _ => if u.kind = unscopedRule then u.result ++ ['\n', '\n'] else []

end Item

/-! ## Items that are read -/

/-- What begins a directive or a comment. -/
def reserved : List (Letters × Text) := [(.anyCase, stem), (.exact, Comment.opening)]

/-- What begins a directive, a declaration of its selector, or a comment. -/
def reservedInBlock : List (Letters × Text) := (.anyCase, "content:".toList) :: reserved

/-- A text has no braces. -/
def IsBraceless (t : Text) : Prop := ∀ c ∈ t, c ≠ '{' ∧ c ≠ '}'

instance (t : Text) : Decidable (IsBraceless t) := decidableForallMem t _

/-- The selector is read as far as its closing quote, and nothing else is read in it. -/
def Quoted.IsWritten (q : Quoted) : Prop :=
  q.mark ∉ q.value ∧ IsBraceless q.value ∧ Lacks reservedInBlock q.value

/-- A directive has the documented form. -/
def Use.IsWritten : Use → Prop
  | nextSelector s replaced => s.IsWritten ∧ IsBraceless replaced ∧ Lacks reserved replaced
  | rule _ s declarations =>
    s.IsWritten ∧ IsBraceless declarations ∧ Lacks reservedInBlock declarations

/-- A text has no directive and no comment, and begins none. -/
def IsPlain (t : Text) : Prop := Lacks reserved t ∧ ∀ c ∈ t.getLast?, isBlank c ∨ c = '}'

/-- An item is plain, or a directive in the documented form with plain text behind it. -/
def Item.IsWritten : Item → Prop
  | plain t => IsPlain t
  | directive u t => u.IsWritten ∧ IsPlain t

instance (q : Quoted) : Decidable q.IsWritten := inferInstanceAs (Decidable (_ ∧ _))

instance : (u : Use) → Decidable u.IsWritten
  | .nextSelector _ _ | .rule _ _ _ => inferInstanceAs (Decidable (_ ∧ _))

instance (t : Text) : Decidable (IsPlain t) :=
  decidable_of_iff (Lacks reserved t ∧ t.getLast?.all fun c => isBlank c || c == '}') (by
    simp [IsPlain, Option.all_eq_true])

instance : (i : Item) → Decidable i.IsWritten
  | .plain t => inferInstanceAs (Decidable (IsPlain t))
  | .directive _ _ => inferInstanceAs (Decidable (_ ∧ _))

/-! ## Texts that are passed over -/

/-- No reserved word begins in a text, whatever follows it. -/
def IsSealed (t : Text) : Prop := Lacks reserved t ∧ ∀ c ∈ t.getLast?, Divides reserved c

theorem IsPlain.isSealed {t : Text} (h : IsPlain t) : IsSealed t := by
  refine ⟨h.1, fun c hc => ?_⟩
  rcases h.2 c hc with hblank | rfl
  · exact divides_of_isBlank (by decide) hblank
  · decide

theorem isSealed_append_singleton {t : Text} (ht : Lacks reserved t) {c : Char}
    (hc : Divides reserved c) : IsSealed (t ++ [c]) := by
  refine ⟨(lacks_append_cons hc t []).mpr ⟨ht, hc.lacks_nil⟩, fun d hd => ?_⟩
  rw [List.getLast?_concat, Option.mem_some_iff] at hd
  exact hd ▸ hc

theorem IsSealed.passes {α : Type} {R : Reader α} {m : Letters} {w t : Text}
    (hR : R.AwaitsLiteral m w) (hw : (m, w) ∈ reserved) (h : IsSealed t) (u : Text) :
    R.Passes t u := by
  obtain rfl | ⟨x, c, rfl⟩ := t.eq_nil_or_concat'
  · intro s hs hne
    exact absurd (List.suffix_nil.mp hs) hne
  · have hc := h.2 c (by rw [List.getLast?_concat]; rfl) (m, w) hw
    have hx := h.1.of_isInfix (List.prefix_append x [c]).isInfix (m, w) hw
    exact hR.passes_append_singleton hx hc.1 hc.2 u

theorem divides_reserved {c : Char} (hc : Divides reservedInBlock c) : Divides reserved c :=
  fun w hw => hc w (List.mem_cons_of_mem _ hw)

theorem divides_mark (q : Quoted) : Divides reservedInBlock q.mark := by
  unfold Quoted.mark
  split <;> decide

variable {q : Quoted} {u : Use} {i : Item}

theorem Quoted.IsWritten.lacks_value (h : q.IsWritten) : Lacks reserved q.value :=
  h.2.2.of_subset (List.subset_cons_self _ _)

theorem Quoted.declaration_append (q : Quoted) (t : Text) :
    q.declaration ++ t = "content: ".toList ++ q.mark :: (q.value ++ q.mark :: t) := by
  have htext : q.text ++ t = q.mark :: (q.value ++ q.mark :: t) := by simp [Quoted.text]
  rw [← htext]
  exact List.append_assoc _ _ _

/-- The quotes keep the selector apart. -/
theorem Quoted.IsWritten.lacks_declaration_append (h : q.IsWritten) {t : Text}
    (ht : Lacks reserved t) : Lacks reserved (" \x7b".toList ++ (q.declaration ++ t)) := by
  have hmark := divides_reserved (divides_mark q)
  have hopen : ∀ c ∈ " \x7b".toList, Divides reserved c := by decide
  have hword : Lacks reserved "content: ".toList := by decide
  have hrest : Lacks reserved (q.value ++ q.mark :: t) :=
    (lacks_append_cons hmark _ _).mpr ⟨h.lacks_value, ht⟩
  have hdeclaration : Lacks reserved (q.declaration ++ t) := by
    rw [Quoted.declaration_append]
    exact (lacks_append_cons hmark _ _).mpr ⟨hword, hrest⟩
  exact (lacks_append_of_divides hopen _).mpr hdeclaration

theorem Use.IsWritten.isSealed_block (h : u.IsWritten) : IsSealed u.block := by
  cases u with
  | nextSelector s replaced =>
    obtain ⟨hs, -, hreplaced⟩ := h
    have hopen : Divides reserved '{' := by decide
    have hclose : Divides reserved '}' := by decide
    have hlacks := hs.lacks_declaration_append ((lacks_cons hclose _).mpr hreplaced)
    simpa [block] using isSealed_append_singleton hlacks hopen
  | rule isScoped s declarations =>
    obtain ⟨hs, -, hdeclarations⟩ := h
    have hclose : Divides reserved '}' := by decide
    have hsemicolon : Divides reserved ';' := by decide
    have hdeclarations := hdeclarations.of_subset (List.subset_cons_self _ _)
    have hlacks := hs.lacks_declaration_append ((lacks_cons hsemicolon _).mpr hdeclarations)
    simpa [block] using isSealed_append_singleton hlacks hclose

theorem Use.IsWritten.isSealed_result (h : u.IsWritten) : IsSealed u.result := by
  have hopen : Divides reserved '{' := by decide
  have hclose : Divides reserved '}' := by decide
  have hspace : Divides reserved ' ' := by decide
  have hsemicolon : Divides reserved ';' := by decide
  cases u with
  | nextSelector s replaced => exact isSealed_append_singleton h.1.lacks_value hopen
  | rule isScoped s declarations =>
    obtain ⟨hs, -, hdeclarations⟩ := h
    have hdeclarations := hdeclarations.of_subset (List.subset_cons_self _ _)
    have hlacks := (lacks_append_cons hspace _ _).mpr ⟨hs.lacks_value,
      (lacks_cons hopen _).mpr ((lacks_cons hsemicolon _).mpr hdeclarations)⟩
    simpa [result] using isSealed_append_singleton hlacks hclose

/-! ## Reading a directive -/

/-- A content declaration is read as far as the closing quote. -/
theorem content?_declaration (h : q.IsWritten) (t : Text) :
    content? (q.declaration ++ t) = some ⟨q.declaration, q.value, t⟩ := by
  have hword : q.declaration ++ t = "content:".toList ++ (' ' :: (q.text ++ t)) := rfl
  have hmark : ¬ isBlank q.mark := by
    unfold Quoted.mark
    split <;> decide
  have hquoted : quoted? (q.text ++ t) = some (q.value, t) := by
    have hcut := cut_append_cons h.1 t
    obtain ⟨isDouble, value⟩ := q
    cases isDouble <;> simpa [quoted?, Quoted.text, Quoted.mark] using hcut
  have htrim : trimStart (' ' :: (q.text ++ t)) = q.text ++ t := trimStart_cons hmark _
  rw [content?, hword, after?_append_self]
  simp only [Option.bind_eq_bind, Option.bind_some, htrim, hquoted]
  rw [← hword]
  simp

/-- The declaration of a written selector is the last one in its block. -/
theorem lastInBlock_declaration (h : q.IsWritten) {x : Text} (hx : Lacks reservedInBlock x)
    {d : Directive} {t : Text} {found : (Text → Text) × Text}
    (hfinish : d.finish? ⟨q.declaration, q.value, x ++ '}' :: t⟩ = some found) :
    lastInBlock d.readDeclaration (" \x7b".toList ++ (q.declaration ++ (x ++ '}' :: t))) =
      some (" \x7b".toList, found) := by
  have hread : ∀ t, after? .anyCase "content:".toList t = none → d.readDeclaration t = none := by
    intro t ht
    rw [readDeclaration, content?_eq_none ht]
    rfl
  have hlacks :
      Lacks reservedInBlock ("ontent: ".toList ++ q.mark :: (q.value ++ q.mark :: x)) := by
    have hmark := divides_mark q
    have hword : Lacks reservedInBlock "ontent: ".toList := by decide
    refine (lacks_append_cons hmark _ _).mpr ⟨hword, ?_⟩
    exact (lacks_append_cons hmark _ _).mpr ⟨h.2.2, hx⟩
  -- the last declaration counts, so none may begin behind the first letter of this one
  have hnone : lastInBlock d.readDeclaration
      ("ontent: ".toList ++ q.mark :: (q.value ++ q.mark :: x) ++ '}' :: t) = none :=
    lastInBlock_eq_none hread (hlacks _ List.mem_cons_self) (by decide) t
  have htext : q.declaration ++ (x ++ '}' :: t) =
      'c' :: ("ontent: ".toList ++ q.mark :: (q.value ++ q.mark :: x) ++ '}' :: t) := by
    have hend : q.mark :: (q.value ++ q.mark :: x) ++ '}' :: t =
        q.mark :: (q.value ++ q.mark :: (x ++ '}' :: t)) := by simp
    rw [Quoted.declaration_append, List.append_assoc, hend]
    rfl
  have hdeclaration : d.readDeclaration (q.declaration ++ (x ++ '}' :: t)) = some found := by
    rw [readDeclaration, content?_declaration h]
    exact hfinish
  rw [htext] at hdeclaration ⊢
  exact lastInBlock_append_cons (by decide) (by decide) hdeclaration hnone

/-- The declaration is the first of its kind in the block. -/
theorem removeFirst_declaration (q : Quoted) (t : Text) :
    removeFirst .exact q.declaration (" \x7b".toList ++ q.declaration ++ t) =
      " \x7b".toList ++ t := by
  have hword : q.declaration = 'c' :: ("ontent: ".toList ++ q.text) := rfl
  have hopen : ∀ c ∈ " \x7b".toList, ¬ Letters.exact.agree 'c' c := by decide
  have hcut : cut .exact q.declaration (" \x7b".toList ++ (q.declaration ++ t)) =
      some (" \x7b".toList, t) := by
    have hafter := after?_append_self .exact q.declaration t
    rw [hword] at hafter ⊢
    exact cut_append_of_after? hopen hafter
  rw [removeFirst, List.append_assoc, hcut]

/-- A directive of the documented form is read to its end. -/
theorem Use.IsWritten.read_text_append (h : u.IsWritten) (t : Text) :
    u.kind.read (u.text ++ t) = some (u.result, t) := by
  rw [read_eq, text, List.append_assoc, after?_append_self, Option.bind_some]
  cases u with
  | nextSelector s replaced =>
    obtain ⟨hs, hreplaced, -⟩ := h
    have hblock : (nextSelector s replaced).block ++ t =
        " \x7b".toList ++ (s.declaration ++ ([] ++ '}' :: (replaced ++ '{' :: t))) := by
      rw [block, List.append_assoc, List.append_assoc, List.cons_append, List.append_assoc]
      rfl
    have hfinish : finish? Directive.nextSelector
        ⟨s.declaration, s.value, [] ++ '}' :: (replaced ++ '{' :: t)⟩ =
          some (fun _ => s.value ++ ['{'], t) := by
      have hcut := cut_append_cons (fun hc => (hreplaced '{' hc).1 rfl) t
      rw [finish?, List.nil_append, afterNextSelector?_close, hcut]
      rfl
    rw [hblock, kind, lastInBlock_declaration hs (by decide) hfinish]
    rfl
  | rule isScoped s declarations =>
    obtain ⟨hs, hdeclarations, hlacks⟩ := h
    have hsemicolon : Divides reservedInBlock ';' := by decide
    have hblock : (rule isScoped s declarations).block ++ t =
        " \x7b".toList ++ (s.declaration ++ ((';' :: declarations) ++ '}' :: t)) := by
      rw [block, List.append_assoc, List.append_assoc, List.cons_append, List.append_assoc]
      rfl
    have hfinish : finish? (rule isScoped s declarations).kind
        ⟨s.declaration, s.value, (';' :: declarations) ++ '}' :: t⟩ =
          some (fun before => ruleText ⟨s.declaration, s.value, (';' :: declarations) ++ '}' :: t⟩
            (before ++ s.declaration ++ (';' :: declarations) ++ ['}']), t) := by
      have hclose : '}' ∉ ';' :: declarations := by
        rintro (_ | ⟨_, hc⟩)
        exact (hdeclarations '}' hc).2 rfl
      have hcut := cut_append_cons hclose t
      cases isScoped <;> rw [kind, finish?, hcut, Option.map_some]
    rw [hblock, lastInBlock_declaration hs ((lacks_cons hsemicolon _).mpr hlacks) hfinish]
    have hremove : removeFirst .exact s.declaration
        (" \x7b".toList ++ s.declaration ++ (';' :: declarations) ++ ['}']) =
          " \x7b".toList ++ (';' :: declarations ++ ['}']) := by
      rw [List.append_assoc]
      exact removeFirst_declaration s _
    simp only [Option.map_some, ruleText, hremove]
    simp [result]

/-! ## Passes -/

/-- What stays of the text that a directive stands for: an unscoped rule goes elsewhere. -/
def kept (d : Directive) (t : Text) : Text := if d = unscopedRule then [] else t

/-- A directive behind the passes that are done. -/
def Use.after (done : List Directive) (u : Use) : Text :=
  if u.kind ∈ done then u.kind.kept u.result else u.text

/-- An item behind the passes that are done. -/
def Item.after (done : List Directive) : Item → Text
  | plain t => t
  | directive u t => u.after done ++ t

/-- The pieces of a directive in the pass for `d`. -/
def Use.pieces (done : List Directive) (d : Directive) (u : Use) : List (Piece Text) :=
  if u.kind = d then [.found u.result] else (u.after done).map .plain

/-- The pieces of an item in the pass for `d`. -/
def Item.pieces (done : List Directive) (d : Directive) : Item → List (Piece Text)
  | plain t => t.map .plain
  | directive u t => u.pieces done d ++ t.map .plain

variable {d : Directive} {done : List Directive}

theorem IsSealed.passes_reader {t : Text} (h : IsSealed t) (d : Directive) (t' : Text) :
    d.reader.Passes t t' := h.passes d.awaitsLiteral_reader List.mem_cons_self t'

/-- No keyword begins inside another one. -/
theorem shuts_keyword {d d' : Directive} (h : d ≠ d') : Shuts .anyCase d.keyword d'.keyword := by
  cases d <;> cases d' <;> first | exact absurd rfl h | decide

theorem Use.IsWritten.passes_text (h : u.IsWritten) (hd : u.kind ≠ d) (t : Text) :
    d.reader.Passes u.text t :=
  (d.awaitsLiteral_keyword.passes_of_shuts (shuts_keyword (Ne.symm hd)) _).append
    (h.isSealed_block.passes_reader d t)

/-- A pass passes over what the passes before it have written, and over all other directives. -/
theorem Use.IsWritten.passes_after (h : u.IsWritten) (hd : u.kind ≠ d) (t : Text) :
    d.reader.Passes (u.after done) t := by
  unfold Use.after kept
  split
  · split
    · exact fun s hs hne => absurd (List.suffix_nil.mp hs) hne
    · exact h.isSealed_result.passes_reader d t
  · exact h.passes_text hd t

theorem Use.IsWritten.scans (h : u.IsWritten) (hd : d ∉ done) (t : Text) :
    d.reader.Scans (u.after done) t (u.pieces done d) := by
  by_cases hkind : u.kind = d
  · subst hkind
    rw [Use.pieces, if_pos rfl, Use.after, if_neg hd]
    exact Reader.scans_of_read (h.read_text_append t)
  · rw [Use.pieces, if_neg hkind]
    exact (h.passes_after hkind t).scans

theorem Item.IsWritten.scans (h : i.IsWritten) (hd : d ∉ done) (t : Text) :
    d.reader.Scans (i.after done) t (i.pieces done d) := by
  cases i with
  | plain x => exact (IsPlain.isSealed h).passes_reader d t |>.scans
  | directive u x => exact (h.1.scans hd _).append (h.2.isSealed.passes_reader d t).scans

/-- A pass for one directive expands it in every item. -/
theorem substitute_after {items : List Item} (h : ∀ i ∈ items, i.IsWritten) (hd : d ∉ done) :
    d.reader.substitute d.kept (items.flatMap (Item.after done)) =
      items.flatMap (Item.after (d :: done)) := by
  have hwrite : ∀ i : Item, (i.pieces done d).flatMap (Reader.writePiece d.kept) =
      i.after (d :: done) := by
    intro i
    cases i with
    | plain t => exact Reader.flatMap_writePiece_plain _ t
    | directive u t =>
      rw [Item.pieces, List.flatMap_append, Reader.flatMap_writePiece_plain, Item.after]
      congr 1
      unfold Use.pieces Use.after
      by_cases hkind : u.kind = d
      · simp [hkind, Reader.writePiece]
      · simp [hkind]
  rw [Reader.substitute_flatMap fun i hi t => (h i hi).scans hd t]
  congr 1
  funext i
  exact hwrite i

theorem Item.IsWritten.passes_comments (h : i.IsWritten) (t : Text) :
    Comment.reader.Passes i.text t := by
  have hsealed : ∀ {x : Text}, IsSealed x → ∀ t, Comment.reader.Passes x t :=
    fun hx => hx.passes Comment.awaitsLiteral_reader (by decide)
  cases i with
  | plain x => exact hsealed (IsPlain.isSealed h) t
  | directive u x =>
    have hkeyword : Shuts .exact Comment.opening u.kind.keyword := by
      cases u.kind <;> decide
    exact ((Comment.awaitsLiteral_reader.passes_of_shuts hkeyword _).append
      (hsealed h.1.isSealed_block _)).append (hsealed h.2.isSealed t)

theorem Item.after_nil : Item.after [] = Item.text := by
  funext i
  cases i <;> simp [Item.after, Use.after, Item.text]

theorem Item.after_all : Item.after [unscopedRule, rule, nextSelector] = Item.own := by
  funext i
  cases i with
  | plain t => rfl
  | directive u t =>
    have hdone : u.kind ∈ [unscopedRule, rule, nextSelector] := by cases u.kind <;> decide
    rw [Item.after, Use.after, if_pos hdone, kept, Item.own]

/-- Each item of a list is expanded by itself. -/
theorem extractUnscoped_expand_items {items : List Item} (h : ∀ i ∈ items, i.IsWritten) :
    extractUnscoped (expand (items.flatMap Item.text)) =
      (items.flatMap Item.own, items.flatMap Item.unscoped) := by
  have hstrip : Comment.strip (items.flatMap Item.text) = items.flatMap (Item.after []) := by
    rw [Comment.strip, Reader.substitute_flatMap_of_passes fun i hi t => (h i hi).passes_comments t,
      Item.after_nil]
  -- one pass after the other, for next selectors, for rules and for unscoped rules
  have hkept : nextSelector.kept = id ∧ rule.kept = id ∧ unscopedRule.kept = fun _ => [] :=
    ⟨rfl, rfl, rfl⟩
  have hexpand : expand (items.flatMap Item.text) =
      items.flatMap (Item.after [rule, nextSelector]) := by
    rw [expand, insert, hstrip, ← hkept.1, substitute_after h (by decide), hkept.1, ← hkept.2.1,
      substitute_after h (by decide)]
  have hown : unscopedRule.reader.substitute (fun _ => [])
      (items.flatMap (Item.after [rule, nextSelector])) = items.flatMap Item.own := by
    rw [← hkept.2.2, substitute_after h (by decide), Item.after_all]
  have hunscoped :
      (unscopedRule.reader.found (items.flatMap (Item.after [rule, nextSelector]))).flatMap
        (· ++ ['\n', '\n']) = items.flatMap Item.unscoped := by
    rw [Reader.found_flatMap fun i hi t => (h i hi).scans (by decide) t, List.flatMap_assoc]
    congr 1
    funext i
    cases i with
    | plain t => simp [Item.pieces, Item.unscoped]
    | directive u t =>
      by_cases hkind : u.kind = unscopedRule <;>
        simp [Item.pieces, Use.pieces, Item.unscoped, Reader.foundIn, hkind]
  rw [extractUnscoped, hexpand, hown, hunscoped]

/-- A rule, an unscoped rule, a selector that is replaced, and texts between them. -/
theorem extractUnscoped_expand_four :
    extractUnscoped (expand ([.plain "a \x7b\x7d ".toList,
      .directive (.rule true ⟨false, "b".toList⟩ "c: d".toList) [],
      .directive (.rule false ⟨true, "e".toList⟩ "f: g".toList) [],
      .directive (.nextSelector ⟨false, "h i".toList⟩ " j > k ".toList) "l: m\x7d\n".toList].flatMap
        Item.text)) =
      ("a \x7b\x7d b \x7b;c: d\x7dh i\x7bl: m\x7d\n".toList, "e \x7b;f: g\x7d\n\n".toList) :=
  (extractUnscoped_expand_items (by decide +kernel)).trans (by decide +kernel)

end ScopedStyles.Directive
