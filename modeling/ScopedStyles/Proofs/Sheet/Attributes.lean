import ScopedStyles.Proofs.Selector.Strict
import ScopedStyles.Proofs.Sheet.Declarations

/-!
# Attribute selectors

A complex selector is a chain of compound selectors, and a compound selector consists of simple
ones: an element, classes, identifiers and attribute selectors. In strict mode each compound
selector gets one attribute selector more, and the others are kept as they are
(`Scope.rules_complex`). A selector is cut at certain characters wherever they stand, between the
brackets of an attribute selector too, so this takes that none of them stands there: an attribute
selector with `~=` is torn apart (`Scope.rules_tears_attribute`).
-/

namespace ScopedStyles

open Text

namespace Selector

/-! ## The syntax of selectors -/

/-- How an attribute selector compares the value of its attribute. -/
inductive Comparison where
  /-- It is the given one. -/
  | equals
  /-- One of its words is. -/
  | hasWord
  /-- It is, or goes on behind it with a hyphen. -/
  | hasStem
  /-- It begins with it. -/
  | beginsWith
  /-- It ends with it. -/
  | endsWith
  /-- It contains it. -/
  | contains
  deriving DecidableEq, Repr

/-- A comparison, as it is written. -/
def Comparison.text : Comparison → Text
  | equals => "=".toList
  | hasWord => "~=".toList
  | hasStem => "|=".toList
  | beginsWith => "^=".toList
  | endsWith => "$=".toList
  | contains => "*=".toList

/-- The value that an attribute is compared with. -/
inductive Value where
  /-- An identifier. -/
  | identifier (name : Text)
  /-- A text in quotes. -/
  | quoted (quote : Char) (inner : Text)
  deriving DecidableEq, Repr

/-- A value, as it is written. -/
def Value.text : Value → Text
  | identifier name => name
  | quoted quote inner => quote :: (inner ++ [quote])

/-- A simple selector. -/
inductive Simple where
  /-- Elements of a type. -/
  | element (name : Text)
  /-- Elements of a class. -/
  | hasClass (name : Text)
  /-- The element with an identifier. -/
  | hasId (name : Text)
  /-- Elements with an attribute, and with a value of it. -/
  | hasAttribute (name : Text) (test : Option (Comparison × Value))
  deriving DecidableEq, Repr

namespace Simple

/-- The name in a simple selector. -/
def name : Simple → Text
  | element name | hasClass name | hasId name | hasAttribute name _ => name

/-- A simple selector, as it is written. -/
def text : Simple → Text
  | element name => name
  | hasClass name => '.' :: name
  | hasId name => '#' :: name
  | hasAttribute name none => '[' :: (name ++ [']'])
  | hasAttribute name (some (comparison, value)) =>
    '[' :: (name ++ comparison.text ++ value.text ++ [']'])

/-- A simple selector in which nothing is cut: its name has no blanks, and none of the characters at
which selectors are cut stands in it. -/
@[mk_iff]
structure IsWhole (x : Simple) : Prop where
  ne_nil : x.name ≠ []
  name : ∀ c ∈ x.name, ¬ isBlank c
  text : ∀ c ∈ x.text, c ≠ ',' ∧ c ≠ ':' ∧ ¬ isCombinator c

instance (x : Simple) : Decidable x.IsWhole := decidable_of_iff' _ x.isWhole_iff

end Simple

/-- A compound selector, as it is written. -/
def compoundText (k : List Simple) : Text := k.flatMap Simple.text

/-- A combinator with the blanks around it. -/
structure Combinator where
  before : Text
  sign : Char
  after : Text
  deriving DecidableEq, Repr

namespace Combinator

/-- The combinator is one, between blanks. -/
@[mk_iff]
structure IsWritten (c : Combinator) : Prop where
  before : ∀ d ∈ c.before, isBlank d
  sign : isCombinator c.sign
  after : ∀ d ∈ c.after, isBlank d

instance (c : Combinator) : Decidable c.IsWritten := decidable_of_iff' _ c.isWritten_iff

/-- A combinator as strict mode writes it. A space before a sign is a combinator by itself. -/
def spread (c : Combinator) : Combinator where
  before := if ' ' ∈ c.before ∧ c.sign ≠ ' ' then "    ".toList else [' ']
  sign := c.sign
  after := [' ']

end Combinator

/-- A complex selector. -/
inductive Complex where
  /-- A compound selector. -/
  | compound (k : List Simple)
  /-- A compound selector, a combinator and what follows it. -/
  | combined (k : List Simple) (c : Combinator) (rest : Complex)
  deriving DecidableEq, Repr

namespace Complex

/-- A complex selector, as it is written. -/
def text : Complex → Text
  | compound k => compoundText k
  | combined k c rest => compoundText k ++ (c.before ++ c.sign :: (c.after ++ rest.text))

/-- A complex selector with one simple selector more in each compound selector, and its combinators
spread. -/
def scopedBy (x : Simple) : Complex → Complex
  | compound k => compound (k ++ [x])
  | combined k c rest => combined (k ++ [x]) c.spread (rest.scopedBy x)

/-- A complex selector that is cut at its combinators only. -/
def IsWhole : Complex → Prop
  | compound k => k ≠ [] ∧ ∀ x ∈ k, x.IsWhole
  | combined k c rest => (k ≠ [] ∧ ∀ x ∈ k, x.IsWhole) ∧ c.IsWritten ∧ rest.IsWhole

instance decidableIsWhole : (t : Complex) → Decidable t.IsWhole
  | compound k => inferInstanceAs (Decidable (k ≠ [] ∧ ∀ x ∈ k, x.IsWhole))
  | combined k c rest =>
    have := rest.decidableIsWhole
    inferInstanceAs (Decidable ((k ≠ [] ∧ ∀ x ∈ k, x.IsWhole) ∧ c.IsWritten ∧ rest.IsWhole))

end Complex

/-! ## Compound selectors -/

/-- The text begins and ends, and not with a blank. -/
structure IsSolid (t : Text) : Prop where
  ne_nil : t ≠ []
  head : ∀ c ∈ t.head?, ¬ isBlank c
  last : ∀ c ∈ t.getLast?, ¬ isBlank c

/-- Whatever stands between two such texts, they begin and end one. -/
theorem IsSolid.append {t u : Text} (ht : IsSolid t) (hu : IsSolid u) (m : Text) :
    IsSolid (t ++ (m ++ u)) := by
  obtain ⟨c, t, rfl⟩ := List.exists_cons_of_ne_nil ht.ne_nil
  refine ⟨List.cons_ne_nil c _, fun d hd => ht.head d hd, fun d hd => hu.last d ?_⟩
  rwa [← List.append_assoc, List.getLast?_append_of_ne_nil _ hu.ne_nil] at hd

theorem IsSolid.trim_eq {t : Text} (h : IsSolid t) : trim t = t := by
  rw [trim, trimStart_eq_self h.head, trimEnd_eq_self h.last]

variable {k : List Simple} {x : Simple}

theorem isSolid_bracket (t : Text) : IsSolid ('[' :: (t ++ [']'])) := by
  refine ⟨List.cons_ne_nil _ _, ?_, ?_⟩
  · rintro c ⟨rfl⟩
    decide
  · intro c hc
    rw [← List.cons_append, List.getLast?_concat] at hc
    obtain rfl := Option.some.inj hc
    decide

theorem Simple.IsWhole.isSolid (h : x.IsWhole) : IsSolid x.text := by
  have hname : IsSolid x.name :=
    ⟨h.ne_nil, fun c hc => h.name c (List.mem_of_mem_head? hc),
      fun c hc => h.name c (List.mem_of_getLast? hc)⟩
  have hsign : ∀ c, ¬ isBlank c → IsSolid [c] := by
    intro c hc
    exact ⟨List.cons_ne_nil c [], by simpa using hc, by simpa using hc⟩
  match x with
  | .element name => exact hname
  | .hasClass name => exact (hsign '.' (by decide)).append hname []
  | .hasId name => exact (hsign '#' (by decide)).append hname []
  | .hasAttribute name none => exact isSolid_bracket name
  | .hasAttribute name (some (comparison, value)) => exact isSolid_bracket _

theorem isSolid_compoundText (hne : k ≠ []) (h : ∀ x ∈ k, x.IsWhole) :
    IsSolid (compoundText k) := by
  induction k with
  | nil => exact absurd rfl hne
  | cons x k ih =>
    rw [List.forall_mem_cons] at h
    rw [compoundText, List.flatMap_cons, ← compoundText]
    by_cases hnil : k = []
    · rw [hnil, compoundText, List.flatMap_nil, List.append_nil]
      exact h.1.isSolid
    · exact h.1.isSolid.append (ih hnil h.2) []

theorem not_cut_of_mem_compoundText (h : ∀ x ∈ k, x.IsWhole) :
    ∀ c ∈ compoundText k, c ≠ ',' ∧ c ≠ ':' ∧ ¬ isCombinator c := by
  intro c hc
  obtain ⟨x, hx, hc⟩ := List.mem_flatMap.mp hc
  exact (h x hx).text c hc

theorem compoundText_append (k k' : List Simple) :
    compoundText (k ++ k') = compoundText k ++ compoundText k' := List.flatMap_append

theorem insertAttribute_of_not_mem {added t : Text} (h : ∀ c ∈ t, c ≠ ':') :
    insertAttribute added t = t ++ added := by
  have hall : ∀ c ∈ t, (c != ':') = true := fun c hc => by simpa using h c hc
  rw [insertAttribute, List.takeWhile_eq_self_iff.mpr hall, List.dropWhile_eq_nil_iff.mpr hall,
    List.append_nil]

namespace Complex

variable {t : Complex}

theorem IsWhole.isSolid (h : t.IsWhole) : IsSolid t.text := by
  induction t with
  | compound k => exact isSolid_compoundText h.1 h.2
  | combined k c rest ih =>
    obtain ⟨⟨hne, hk⟩, hc, hrest⟩ := h
    have hwhole : (combined k c rest).text =
        compoundText k ++ ((c.before ++ c.sign :: c.after) ++ rest.text) := by simp [text]
    rw [hwhole]
    exact (isSolid_compoundText hne hk).append (ih hrest) _

theorem IsWhole.not_mem_comma (h : t.IsWhole) : ',' ∉ t.text := by
  have hblank : ∀ b : Text, (∀ d ∈ b, isBlank d) → ',' ∉ b :=
    fun b hb hc => absurd (hb ',' hc) (by decide)
  induction t with
  | compound k => exact fun hc => (not_cut_of_mem_compoundText h.2 ',' hc).1 rfl
  | combined k c rest ih =>
    obtain ⟨⟨-, hk⟩, hc, hrest⟩ := h
    have hsign : ',' ≠ c.sign := by
      intro hcomma
      exact absurd (hcomma ▸ hc.sign) (by decide)
    rw [text]
    simp only [List.mem_append, List.mem_cons, not_or]
    exact ⟨fun hcomma => (not_cut_of_mem_compoundText hk ',' hcomma).1 rfl,
      hblank _ hc.before, hsign, hblank _ hc.after, ih hrest⟩

end Complex

end Selector

namespace Scope

open Selector

variable {s : Scope} {k : List Simple} {c : Combinator} {u : Text}

/-- What the scope adds to a compound selector. -/
def contentSelector (s : Scope) : Simple := .hasAttribute (unwrapIs s.content) none

theorem text_contentSelector (s : Scope) : s.contentSelector.text = s.contentAttribute := rfl

theorem compound_compoundText (hne : k ≠ []) (hk : ∀ x ∈ k, x.IsWhole)
    (hmarker : ¬ includes .anyCase Host.marker (compoundText k)) :
    s.compound (compoundText k) = compoundText (k ++ [s.contentSelector]) := by
  have hsolid := isSolid_compoundText hne hk
  have hink : trim (compoundText k) ≠ [] := by
    rw [hsolid.trim_eq]
    exact hsolid.ne_nil
  have hcolon : ∀ c ∈ compoundText k, c ≠ ':' :=
    fun c hc => (not_cut_of_mem_compoundText hk c hc).2.1
  have hadded : compoundText [s.contentSelector] = s.contentAttribute := by
    rw [compoundText, List.flatMap_singleton, text_contentSelector]
  rw [compound_of_not_includes hink hmarker, insertAttribute_of_not_mem hcolon,
    compoundText_append, hadded]

/-- Blanks before a combinator go, but for a space. -/
theorem inside_append_sign (hu : ∀ d ∈ u, ¬ isCombinator d) (hsolid : IsSolid u) {b : Text}
    (hb : ∀ d ∈ b, isBlank d) (hspace : ' ' ∉ b) {d : Char} (hd : isCombinator d) (v : Text) :
    s.inside (u ++ (b ++ d :: v)) =
      s.compound u ++ ([' ', d, ' '] ++ s.inside (trimStart v)) := by
  have hrun : ∀ e ∈ u ++ b, ¬ isCombinator e :=
    List.forall_mem_append.mpr ⟨hu, not_isCombinator_of_blanks hb hspace⟩
  rw [← List.append_assoc, inside_append_cons hrun hd, trim_append_of_blanks hb, hsolid.trim_eq]

/-- A combinator and the blanks around it are read as one combinator, or as a space and a sign. -/
theorem inside_append_combinator (hu : ∀ d ∈ u, ¬ isCombinator d) (hsolid : IsSolid u)
    (hc : c.IsWritten) {v : Text} (hv : IsSolid v) :
    s.inside (u ++ (c.before ++ c.sign :: (c.after ++ v))) =
      s.compound u ++ (c.spread.before ++ c.spread.sign :: (c.spread.after ++ s.inside v)) := by
  have hstart : trimStart (c.after ++ v) = v := by
    rw [trimStart_append_of_blanks hc.after, trimStart_eq_self hv.head]
  by_cases hspace : ' ' ∈ c.before
  · obtain ⟨b₁, b₂, hb, hfirst⟩ := List.eq_append_cons_of_mem hspace
    have hblanks := hc.before
    rw [hb, List.forall_mem_append, List.forall_mem_cons] at hblanks
    obtain ⟨hb₁, -, hb₂⟩ := hblanks
    have hwhole : c.before ++ c.sign :: (c.after ++ v) =
        b₁ ++ ' ' :: (b₂ ++ c.sign :: (c.after ++ v)) := by simp [hb]
    rw [hwhole, inside_append_sign hu hsolid hb₁ hfirst (by decide), trimStart_append_of_blanks hb₂]
    by_cases hsign : c.sign = ' '
    · rw [hsign, trimStart, List.dropWhile_cons_of_pos (by decide), ← trimStart, hstart]
      simp [Combinator.spread, hsign]
    · have hblank : ¬ isBlank c.sign :=
        not_isBlank_of_isSign ((isCombinator_iff.mp hc.sign).resolve_left hsign)
      rw [trimStart_cons hblank, inside_cons hc.sign, hstart]
      simp [Combinator.spread, hspace, hsign]
  · rw [inside_append_sign hu hsolid hc.before hspace hc.sign, hstart]
    simp [Combinator.spread, hspace]

theorem inside_text {t : Selector.Complex} (ht : t.IsWhole)
    (hmarker : ¬ includes .anyCase Host.marker t.text) :
    s.inside t.text = (t.scopedBy s.contentSelector).text := by
  induction t with
  | compound k =>
    have hrun : ∀ c ∈ compoundText k, ¬ isCombinator c :=
      fun c hc => (not_cut_of_mem_compoundText ht.2 c hc).2.2
    rw [Selector.Complex.text, inside_of_run hrun, compound_compoundText ht.1 ht.2 hmarker]
    rfl
  | combined k c rest ih =>
    obtain ⟨⟨hne, hk⟩, hc, hrest⟩ := ht
    have hrun : ∀ c ∈ compoundText k, ¬ isCombinator c :=
      fun c hc => (not_cut_of_mem_compoundText hk c hc).2.2
    have hfirst : ¬ includes .anyCase Host.marker (compoundText k) :=
      not_includes_of_isInfix (List.prefix_append _ _).isInfix hmarker
    have hbehind : ¬ includes .anyCase Host.marker rest.text :=
      not_includes_of_isInfix
        (List.IsSuffix.isInfix ⟨compoundText k ++ (c.before ++ c.sign :: c.after), by
          simp [Selector.Complex.text]⟩) hmarker
    rw [Selector.Complex.text,
      inside_append_combinator hrun (isSolid_compoundText hne hk) hc hrest.isSolid,
      compound_compoundText hne hk hfirst, ih hrest hbehind]
    rfl

/-! ## Rules -/

/-- A complex selector that is a prelude, and is inside the component. -/
structure IsPrelude (s : Scope) (t : Selector.Complex) : Prop where
  whole : t.IsWhole
  run : IsRun t.text
  style : t.text.head? ≠ some '@'
  inside : s.IsInside t.text

theorem selector_text (hmode : s.mode = .strict) {t : Selector.Complex} (ht : t.IsWhole)
    (hinside : s.IsInside t.text) :
    s.selector t.text = (t.scopedBy s.contentSelector).text := by
  rw [selector, split_of_not_mem ht.not_mem_comma, List.map_singleton, List.intercalate_singleton,
    hinside.alternative_eq hmode, ht.isSolid.trim_eq, inside_text ht hinside.marker]

/-- A selector is scoped without the blanks behind it. -/
theorem prelude_append_right_of_blanks {x blanks : Text} (hx : IsSolid x)
    (hstyle : x.head? ≠ some '@') (hblanks : ∀ c ∈ blanks, isBlank c) :
    ¬ IsDirective (x ++ blanks) ∧ s.prelude (x ++ blanks) = s.selector x ++ blanks := by
  obtain ⟨c, u, rfl⟩ := List.exists_cons_of_ne_nil hx.ne_nil
  have htrim : trim (c :: u ++ blanks) = c :: u := by
    rw [trim_append_of_blanks hblanks, hx.trim_eq]
  have hdirective : ¬ IsDirective (c :: u ++ blanks) := by
    rintro ⟨⟨v, hv⟩, -⟩
    rw [htrim] at hv
    exact hstyle (by rw [← hv]; rfl)
  have htake : (c :: u ++ blanks).takeWhile isBlank = [] :=
    List.takeWhile_cons_of_neg (hx.head c rfl)
  refine ⟨hdirective, ?_⟩
  rw [prelude, if_neg hdirective, htake, htrim, blanksAtEnd_append_of_blanks hblanks,
    blanksAtEnd_eq_nil hx.last, List.nil_append, List.nil_append]

/-- In strict mode each compound selector of a rule gets one attribute selector more, and all its
simple selectors are kept. -/
theorem rules_complex {s : Scope} (hmode : s.mode = .strict) {t : Selector.Complex}
    (ht : s.IsPrelude t) {blanks declarations : Text} (hblanks : ∀ c ∈ blanks, isBlank c)
    (hdeclarations : ∀ c ∈ declarations, c ≠ '{' ∧ c ≠ '}') :
    s.rules (Rule.text ⟨t.text ++ blanks, declarations⟩) =
      Rule.text ⟨(t.scopedBy s.contentSelector).text ++ blanks, declarations⟩ := by
  have hsolid := ht.whole.isSolid
  obtain ⟨hdirective, hprelude⟩ :=
    @prelude_append_right_of_blanks s _ _ hsolid ht.style hblanks
  have hrule : Rule.IsStyle ⟨t.text ++ blanks, declarations⟩ := by
    obtain ⟨c, u, hu⟩ := List.exists_cons_of_ne_nil hsolid.ne_nil
    refine ⟨?_, ⟨c, ?_, hsolid.head c (hu ▸ rfl)⟩, fun hlevel => hdirective hlevel.isDirective,
      hdeclarations⟩
    · exact List.forall_mem_append.mpr ⟨ht.run, isRun_of_blanks hblanks⟩
    · exact List.mem_append_left blanks (hu ▸ List.mem_cons_self)
  have hrules := s.rules_text_append hrule (t := []) (.inl (by simp))
  rw [List.append_nil, rules_nil, List.append_nil] at hrules
  rw [hrules, hprelude, selector_text hmode ht.whole ht.inside]

/-- Comparisons, a bracket in quotes, a space before a sign, and a descendant combinator. -/
theorem rules_complex_brackets :
    let s : Scope := { content := "c".toList, host := "h".toList }
    let t : Selector.Complex :=
      .combined [.element "a".toList,
          .hasAttribute "x".toList (some (.beginsWith, .quoted '"' "b]".toList)),
          .hasId "d".toList]
        ⟨"\n ".toList, '>', "\t".toList⟩
        (.combined [.hasClass "e".toList] ⟨[], ' ', [' ']⟩
          (.compound [.hasAttribute "y".toList (some (.hasStem, .identifier "en".toList)),
            .hasAttribute "z".toList none]))
    t.text = "a[x^=\"b]\"]#d\n >\t.e  [y|=en][z]".toList ∧
      s.rules (Rule.text ⟨t.text ++ [' '], []⟩) =
        "a[x^=\"b]\"]#d[c]    > .e[c]   [y|=en][z][c] \x7b\x7d".toList := by
  intro s t
  have hinside : s.IsInside t.text := ⟨by decide +kernel, by decide +kernel, by decide +kernel⟩
  have hprelude : s.IsPrelude t :=
    ⟨by decide +kernel, by decide +kernel, by decide +kernel, hinside⟩
  refine ⟨by decide +kernel, (rules_complex rfl hprelude (by decide) (by decide)).trans ?_⟩
  decide +kernel

/-- The comparison with a word is torn apart, as a tilde is a combinator too. -/
theorem rules_tears_attribute :
    let s : Scope := { content := "c".toList, host := "h".toList }
    let t : Selector.Complex :=
      .compound [.hasAttribute "a".toList (some (.hasWord, .identifier "b".toList))]
    let r : Rule := ⟨t.text ++ [' '], []⟩
    s.IsInside t.text ∧ s.rules r.text = "[a[c] ~ =b][c] \x7b\x7d".toList ∧
      ¬ t.text <:+: s.rules r.text := by
  refine ⟨⟨by decide +kernel, by decide +kernel, by decide +kernel⟩, by decide +kernel,
    by decide +kernel⟩

end Scope

end ScopedStyles
