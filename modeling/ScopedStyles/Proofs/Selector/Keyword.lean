import ScopedStyles.Proofs.Selector.Deep
import ScopedStyles.Proofs.Text.Scans

/-!
# Keywords

An at-rule is known by its keyword: the at-sign and the name behind it. A scoped selector list that
begins with a keyword still begins with it (`Scope.leads_selector`), whatever the scope: a list is
cut, and attributes are put into it, only where the name has ended. There are two exceptions. In
loose mode the scope may go before the whole list, and a marker of `:host` is replaced wherever it
stands, so that the keyword must be without one.
-/

namespace ScopedStyles

open Text

namespace Selector

variable {k x y : Text} {c : Char}

/-! ## Names -/

/-- The ASCII characters of names, as first and last code point of each range: the hyphen, digits,
capital letters, the backslash, with which an escape begins, the underscore and small letters. -/
def nameRanges : List (Nat × Nat) :=
  [(0x2d, 0x2d), (0x30, 0x39), (0x41, 0x5a), (0x5c, 0x5c), (0x5f, 0x5f), (0x61, 0x7a)]

/-- Whether a name may have this character. Beyond ASCII these are all that are not blank. -/
def inName (c : Char) : Bool :=
  (nameRanges.any fun (first, last) => first ≤ c.toNat && c.toNat ≤ last) ||
    (0x80 ≤ c.toNat && !isBlank c)

theorem not_isBlank_of_inName (h : inName c) : ¬ isBlank c := by
  intro hblank
  rw [inName, hblank, Bool.not_true, Bool.and_false, Bool.or_false] at h
  simp only [isBlank, blankRanges, nameRanges, List.any_cons, List.any_nil, Bool.or_eq_true,
    Bool.and_eq_true, decide_eq_true_eq, Bool.false_eq_true, or_false] at hblank h
  omega

/-- No character but those of names counts as one when case is ignored. -/
theorem inName_of_foldCase (h : inName (foldCase c)) : inName c := by
  unfold foldCase at h
  split at h
  · rename_i hc
    rw [hc]
    decide
  · split at h
    · rename_i hc
      rw [hc]
      decide
    · unfold Char.toLower at h
      split at h
      · rename_i hupper
        have hfirst : 0x41 ≤ c.toNat := UInt32.le_iff_toNat_le.mp hupper.1
        have hlast : c.toNat ≤ 0x5a := UInt32.le_iff_toNat_le.mp hupper.2
        simp [inName, nameRanges, hfirst, hlast]
      · exact h

/-- No character of the anchor counts as one that ends a name. -/
theorem disagree_anchor (hc : ¬ inName c) (m : Letters) : ∀ a ∈ Host.anchor, ¬ m.agree a c := by
  have hanchor : ∀ a ∈ Host.anchor, inName a ∧ foldCase a = a := by decide
  intro a ha hagree
  obtain ⟨hname, hfold⟩ := hanchor a ha
  cases m with
  | exact =>
    simp only [Letters.agree, beq_iff_eq] at hagree
    exact hc (hagree ▸ hname)
  | anyCase =>
    simp only [Letters.agree, beq_iff_eq] at hagree
    exact hc (inName_of_foldCase (by rwa [← hagree, hfold]))

/-! ## Words at the head of a text -/

/-- The text begins with the word, and the name at the end of the word does not go on. -/
def Leads (k x : Text) : Prop := ∃ r, x = k ++ r ∧ ∀ c ∈ r.head?, ¬ inName c

theorem Leads.isPrefix (h : Leads k x) : k <+: x := by
  obtain ⟨r, rfl, -⟩ := h
  exact List.prefix_append k r

theorem Leads.append (h : Leads k x) (hy : ∀ c ∈ y.head?, ¬ inName c) : Leads k (x ++ y) := by
  obtain ⟨r, rfl, hr⟩ := h
  refine ⟨r ++ y, by rw [List.append_assoc], ?_⟩
  cases r with
  | nil => exact hy
  | cons c r => exact hr

theorem Leads.of_isPrefix (h : Leads k x) (hy : y <+: x) (hk : k <+: y) : Leads k y := by
  obtain ⟨r, rfl, hr⟩ := h
  obtain ⟨u, rfl⟩ := hk
  refine ⟨u, rfl, fun c hc => hr c ?_⟩
  obtain ⟨v, rfl⟩ := (List.prefix_append_right_inj k).mp hy
  rw [List.head?_append, Option.mem_def.mp hc]
  rfl

/-- A word at which nothing is cut begins the first part inside the component. -/
theorem isPrefix_innerPart {a : Text} (hk : ∀ c ∈ k, c ≠ '>' ∧ c ≠ '/') (h : k <+: trim a) :
    k <+: innerPart a := by
  obtain ⟨u, hu⟩ := h
  have hpasses : deepReader.Passes k u := by
    intro t ht hne
    obtain ⟨c, t, rfl⟩ := List.exists_cons_of_ne_nil hne
    obtain ⟨hangle, hslash⟩ := hk c (ht.subset List.mem_cons_self)
    refine read_deepReader fun w hw => ?_
    simp only [deep, List.mem_cons, List.not_mem_nil, or_false] at hw
    rcases hw with rfl | rfl
    · simp [after?, Letters.agree, Ne.symm hangle]
    · simp [after?, Letters.agree, Ne.symm hslash]
  rw [innerPart, ← hu, hpasses.between_append]
  exact List.prefix_append k _

/-- The part of a selector list before its first comma and its first deep combinator. -/
def firstPart (t : Text) : Text := innerPart (t.takeWhile (· != ','))

/-! ## Keywords -/

/-- The at-sign with a name. -/
def IsKeyword (k : Text) : Prop := ∃ name, k = '@' :: name ∧ ∀ c ∈ name, inName c

namespace IsKeyword

theorem ne_nil (hk : IsKeyword k) : k ≠ [] := by
  obtain ⟨name, rfl, -⟩ := hk
  exact List.cons_ne_nil _ name

theorem not_mem (hk : IsKeyword k) (hat : c ≠ '@') (hc : ¬ inName c) : c ∉ k := by
  obtain ⟨name, rfl, hname⟩ := hk
  rw [List.mem_cons, not_or]
  exact ⟨hat, fun hmem => hc (hname c hmem)⟩

theorem not_isBlank (hk : IsKeyword k) : ∀ c ∈ k, ¬ isBlank c := by
  obtain ⟨name, rfl, hname⟩ := hk
  exact List.forall_mem_cons.mpr ⟨by decide, fun c hc => not_isBlank_of_inName (hname c hc)⟩

theorem leads_trim (hk : IsKeyword k) (h : Leads k x) : Leads k (trim x) := by
  obtain ⟨r, rfl, hr⟩ := h
  have htrim := trim_append_of_ink hk.ne_nil hk.not_isBlank r
  have hprefix : k ++ trimEnd r <+: k ++ r :=
    (List.prefix_append_right_inj k).mpr (trimEnd_isPrefix r)
  rw [htrim]
  exact Leads.of_isPrefix ⟨r, rfl, hr⟩ hprefix (List.prefix_append k _)

/-- Nothing cuts a keyword. -/
theorem leads_firstPart (hk : IsKeyword k) (h : Leads k x) : Leads k (firstPart x) := by
  have hcomma : ∀ c ∈ k, (c != ',') = true := by
    intro c hc
    rw [bne_iff_ne]
    rintro rfl
    exact hk.not_mem (by decide) (by decide) hc
  have hdeep : ∀ c ∈ k, c ≠ '>' ∧ c ≠ '/' := by
    intro c hc
    refine ⟨?_, ?_⟩ <;> rintro rfl <;> exact hk.not_mem (by decide) (by decide) hc
  have hpiece : Leads k (x.takeWhile (· != ',')) := by
    refine h.of_isPrefix (List.takeWhile_prefix _) ?_
    obtain ⟨r, rfl, -⟩ := h
    rw [List.takeWhile_append_of_pos hcomma]
    exact List.prefix_append k _
  have htrim := hk.leads_trim hpiece
  exact htrim.of_isPrefix (innerPart_isPrefix_trim _) (isPrefix_innerPart hdeep htrim.isPrefix)

end IsKeyword

/-- The keyword of a prelude, or nothing where there is none. -/
def keyword (p : Text) : Text :=
  match trim p with
  | '@' :: t => '@' :: t.takeWhile inName
  | _ => []

theorem keyword_of_at {p t : Text} (h : trim p = '@' :: t) :
    keyword p = '@' :: t.takeWhile inName := by
  simp only [keyword, h]

theorem isKeyword_keyword {p : Text} (h : ['@'] <+: trim p) : IsKeyword (keyword p) := by
  obtain ⟨t, ht⟩ := h
  exact ⟨t.takeWhile inName, keyword_of_at ht.symm, fun c hc => List.mem_takeWhile_imp hc⟩

theorem leads_keyword {p : Text} (h : ['@'] <+: trim p) : Leads (keyword p) (trim p) := by
  obtain ⟨t, ht⟩ := h
  rw [keyword_of_at ht.symm, ← ht]
  refine ⟨t.dropWhile inName, by simp, fun c hc => ?_⟩
  have hhead := List.head?_dropWhile_not inName t
  rw [Option.mem_def.mp hc] at hhead
  simpa using hhead

/-- A prelude has the keyword with which it begins. -/
theorem IsKeyword.keyword_eq {p : Text} (hk : IsKeyword k) (h : Leads k (trim p)) :
    keyword p = k := by
  obtain ⟨name, rfl, hname⟩ := hk
  obtain ⟨r, hr, hend⟩ := h
  have hstop : r.takeWhile inName = [] := by
    cases r with
    | nil => rfl
    | cons c r => exact List.takeWhile_cons_of_neg (hend c rfl)
  rw [List.cons_append] at hr
  rw [keyword_of_at hr, List.takeWhile_append_of_pos hname, hstop, List.append_nil]

/-! ## Markers behind a word -/

/-- A word is left where it is by what copies it, and with it a character that ends the name. -/
theorem Leads.of_copied {f : Text → Text} (hself : f k = k)
    (hnext : ∀ c r, ¬ inName c → ∃ r', f (k ++ c :: r) = k ++ c :: r') (h : Leads k x) :
    Leads k (f x) := by
  obtain ⟨r, rfl, hr⟩ := h
  cases r with
  | nil =>
    rw [List.append_nil, hself]
    exact ⟨[], (List.append_nil k).symm, hr⟩
  | cons c r =>
    obtain ⟨r', hcopied⟩ := hnext c r (hr c rfl)
    exact ⟨c :: r', hcopied, hr⟩

section Replacing

variable {m : Letters} {w : Text} (hw : w ⊆ Host.anchor) (hne : w ≠ []) (hk : ¬ includes m w k)

include hw hne hk

/-- A marker that does not stand in a word is replaced behind the name at its end. -/
theorem Leads.replace (h : Leads k x) (new : Text) : Leads k (replace m w new x) := by
  refine h.of_copied (replace_of_not_includes hk new) fun c r hc => ?_
  have hdisagree : ∀ a ∈ w, ¬ m.agree a c := fun a ha => disagree_anchor hc m a (hw ha)
  rw [replace_append_cons hne hdisagree, replace_of_not_includes hk]
  exact ⟨_, rfl⟩

theorem Leads.replaceFirst (h : Leads k x) (new : Text) : Leads k (replaceFirst m w new x) := by
  refine h.of_copied (replaceFirst_of_not_includes hk new) fun c r hc => ?_
  have hdisagree : ∀ a ∈ w, ¬ m.agree a c := fun a ha => disagree_anchor hc m a (hw ha)
  exact ⟨_, replaceFirst_append_cons hne hdisagree hk new r⟩

end Replacing

/-- An attribute goes behind a name without a colon. -/
theorem Leads.insertAttribute {added : Text} (hcolon : ':' ∉ k) (hne : added ≠ [])
    (hadded : ∀ c ∈ added.head?, ¬ inName c) (h : Leads k x) :
    Leads k (insertAttribute added x) := by
  obtain ⟨r, rfl, hr⟩ := h
  have hk : ∀ c ∈ k, (c != ':') = true := by
    intro c hc
    rw [bne_iff_ne]
    rintro rfl
    exact hcolon hc
  rw [Selector.insertAttribute, List.takeWhile_append_of_pos hk, List.dropWhile_append_of_pos hk]
  refine ⟨r.takeWhile (· != ':') ++ added ++ r.dropWhile (· != ':'), by simp, ?_⟩
  obtain ⟨d, added, rfl⟩ := List.exists_cons_of_ne_nil hne
  cases r with
  | nil => exact hadded
  | cons c r =>
    by_cases hc : c = ':'
    · subst hc
      exact hadded
    · simpa [hc] using hr

end Selector

namespace Scope

open Selector

variable {s : Scope} {k p t : Text}

/-! ## Scoped selectors -/

section Keyword

variable (hk : IsKeyword k) (hmarker : ¬ includes .anyCase Host.marker k)

include hk hmarker

omit hk in
theorem leads_writeHost (h : Leads k t) : Leads k (s.writeHost t) := by
  have hsuffix : Host.marker ⊆ Host.anchor := List.subset_append_left _ _
  have hanchor := h.replaceFirst (List.Subset.refl _) (by decide)
    (Host.not_includes_anchor hmarker) s.hostText
  exact hanchor.replace hsuffix (by decide) hmarker _

theorem leads_compound (h : Leads k t) : Leads k (s.compound t) := by
  have hsuffix : Host.marker ⊆ Host.anchor := List.subset_append_left _ _
  have hbare : Leads k (replace .anyCase Host.marker [] t) :=
    h.replace hsuffix (by decide) hmarker []
  have hne : ∀ {x : Text}, Leads k x → x ≠ [] := by
    rintro x hx rfl
    exact hk.ne_nil (List.prefix_nil.mp hx.isPrefix)
  rw [compound, if_neg (hne (hk.leads_trim h))]
  split
  · exact leads_writeHost hmarker h
  · split
    · rename_i hnil
      exact absurd hnil (hne hbare)
    · exact hbare.insertAttribute (hk.not_mem (by decide) (by decide)) (List.cons_ne_nil _ _)
        (by rintro c ⟨rfl⟩; decide)

/-- The keyword stands in the first compound selector, where nothing is put before it. -/
theorem leads_strictly (h : Leads k t) : Leads k (s.strictly t) := by
  induction t using chain_induction with
  | run x hx =>
    rw [strictly, chain_of_run hx]
    exact leads_compound hk hmarker h
  | link x c t hx hc ih =>
    have hnot : c ∉ k := by
      simp only [isCombinator, Bool.or_eq_true, beq_iff_eq] at hc
      rcases hc with ((rfl | rfl) | rfl) | rfl <;> exact hk.not_mem (by decide) (by decide)
    have hprefix : k <+: x := isPrefix_of_append_cons h.isPrefix hnot
    have hfirst : Leads k (trim x) :=
      hk.leads_trim (h.of_isPrefix (List.prefix_append x _) hprefix)
    have hspace : ∀ u : Text, ∀ d ∈ ([' ', c, ' '] ++ u).head?, ¬ inName d := by
      rintro u d ⟨rfl⟩
      decide
    rw [strictly, chain_append_cons hx hc, links, List.append_assoc, List.append_assoc]
    refine Leads.append ?_ ?_
    · split
      · exact leads_compound hk hmarker hfirst
      · exact hfirst
    · exact hspace _

end Keyword

/-- In loose mode the scope goes before the part inside the component, unless that is scoped already
or names the host element. -/
def Precedes (s : Scope) (t : Text) : Prop :=
  s.mode = .loose ∧ ¬ isScoped s.content t ∧ ¬ includes .anyCase Host.marker t

instance (s : Scope) (t : Text) : Decidable (s.Precedes t) := inferInstanceAs (Decidable (_ ∧ _))

/-- Nothing is put before or into a keyword at the head of the part inside the component. -/
def Spares (s : Scope) (k t : Text) : Prop :=
  isScoped s.content t ∨ ¬ includes .anyCase Host.marker k ∧ ¬ s.Precedes t

instance (s : Scope) (k t : Text) : Decidable (s.Spares k t) :=
  inferInstanceAs (Decidable (_ ∨ _ ∧ _))

theorem shallow_of_precedes (h : s.Precedes t) : s.shallow t = s.content ++ ' ' :: t := by
  rw [shallow_loose h.1 h.2.2, if_neg h.2.1]

theorem leads_shallow (hk : IsKeyword k) (hspares : s.Spares k t) (h : Leads k t) :
    Leads k (s.shallow t) := by
  unfold shallow
  split
  · exact h
  · rename_i hscoped
    obtain ⟨hmarker, hnot⟩ := hspares.resolve_left hscoped
    split
    · exact leads_strictly hk hmarker h
    · rename_i hmode
      have hhost : includes .anyCase Host.marker t :=
        by_contra fun hhost => hnot ⟨hmode, hscoped, hhost⟩
      rw [loosely, if_pos hhost]
      exact leads_writeHost hmarker h

/-! ## Selector lists -/

/-- A scoped selector list begins with its scoped first part, and no name goes on behind that. -/
theorem exists_selector_eq (s : Scope) (t : Text) :
    ∃ tail, s.selector t = s.shallow (firstPart t) ++ tail ∧ ∀ c ∈ tail.head?, ¬ inName c := by
  obtain ⟨pieces, hsplit⟩ := split_eq_takeWhile_cons ',' t
  obtain ⟨tail, htail, hspaced⟩ := s.exists_alternative_eq (t.takeWhile (· != ','))
  refine ⟨", ".toList.intercalate (tail :: pieces.map s.alternative), ?_, ?_⟩
  · rw [append_intercalate_cons, firstPart, ← htail, selector, hsplit, List.map_cons]
  · rcases hspaced with rfl | ⟨u, rfl⟩
    · cases pieces with
      | nil => simp
      | cons piece pieces =>
        rw [List.map_cons, List.intercalate_cons_cons]
        rintro c ⟨rfl⟩
        decide
    · obtain ⟨v, hv⟩ := isPrefix_intercalate_cons ", ".toList (' ' :: u) (pieces.map s.alternative)
      rw [← hv]
      rintro c ⟨rfl⟩
      decide

/-- A scoped selector list begins with the keyword that the list begins with. -/
theorem leads_selector (hk : IsKeyword k) (hspares : s.Spares k (firstPart t)) (h : Leads k t) :
    Leads k (s.selector t) := by
  obtain ⟨tail, htail, hend⟩ := s.exists_selector_eq t
  rw [htail]
  exact (leads_shallow hk hspares (hk.leads_firstPart h)).append hend

/-- Where the scope goes before a selector list, it stands before the first part of that. -/
theorem selector_of_precedes (h : s.Precedes (firstPart t)) :
    ∃ tail, s.selector t = s.content ++ ' ' :: (firstPart t ++ tail) := by
  obtain ⟨tail, htail, -⟩ := s.exists_selector_eq t
  exact ⟨tail, by rw [htail, shallow_of_precedes h, List.append_assoc, List.cons_append]⟩

end Scope

end ScopedStyles
