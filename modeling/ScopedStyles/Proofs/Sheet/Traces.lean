import ScopedStyles.Proofs.Host.Closed
import ScopedStyles.Proofs.Selector.Marks
import ScopedStyles.Proofs.Sheet.Plain
import ScopedStyles.Proofs.Sheet.Styles

/-!
# Stylesheets without traces

No marker is seen in a stylesheet for the document (`Scope.lacks_encapsulate`). This takes that in
strict mode no compound selector with a combinator behind it has its anchor anywhere but at its
beginning: `a:host b` keeps it (`Scope.encapsulate_leaks_anchor`). Of a selector that names the host
more than once it is asked, just as far as it matters, what stands between the names
(`Scope.Clears`).
-/

namespace ScopedStyles

open Text Host

/-! ## Selector lists -/

/-- One of the items of a selector list. -/
inductive SelectorItem where
  /-- A selector that does not name the host. -/
  | plain (t : Text)
  /-- A selector that names the host once. -/
  | named (a : Named)
  /-- A selector that may name the host more than once. -/
  | several (t : Text)
  deriving DecidableEq, Repr

namespace SelectorItem

/-- The item as it is written. -/
def text : SelectorItem → Text
  | plain t => t
  | named a => a.text
  | several t => t

/-- The alternatives that the item is normalized to. -/
def pieces : SelectorItem → List Text
  | plain t => [flattenCombinators t]
  | named a => a.readings.map (·.flatten.text)
  | several t => split ',' (normalize t)

/-- The item leaves no trace of a marker. -/
def Settles (s : Scope) : SelectorItem → Prop
  | plain t => IsClean t ∧ ',' ∉ t
  | named a => (a.IsRead ∧ ',' ∉ a.before) ∧ ∀ r ∈ a.readings, s.Settles r.flatten
  | several t => IsClosed t ∧ ∀ p ∈ split ',' (normalize t), s.Clears p

instance (s : Scope) : (item : SelectorItem) → Decidable (item.Settles s)
  | plain _ => inferInstanceAs (Decidable (_ ∧ _))
  | named _ => inferInstanceAs (Decidable (_ ∧ _))
  | several _ => inferInstanceAs (Decidable (_ ∧ _))

/-- A selector list as it is written. -/
def list (items : List SelectorItem) : Text := [','].intercalate (items.map text)

/-- A selector list as it is normalized. -/
def normalized (items : List SelectorItem) : Text := [','].intercalate (items.flatMap pieces)

variable {s : Scope} {item : SelectorItem} {items : List SelectorItem}

theorem Settles.pieces_ne_nil (h : item.Settles s) : item.pieces ≠ [] := by
  cases item with
  | plain t => exact List.cons_ne_nil _ _
  | named a =>
    obtain ⟨behind, rs, -, hreadings⟩ := h.1.1.isFound.exists_expansions
    simp [pieces, hreadings]
  | several t => exact split_ne_nil ',' (normalize t)

/-! ## Normalizing -/

theorem Settles.normalize_append (h : item.Settles s) {c : Char} (hc : ¬ inSelector c)
    (t : Text) : normalize (item.text ++ c :: t) =
      [','].intercalate item.pieces ++ c :: normalize t := by
  cases item with
  | plain x =>
    simpa [text, pieces] using normalize_append_cons h.1.1 (divides_of_not_inSelector hc) t
  | named a => exact h.1.1.isFound.normalize_append hc t
  | several x =>
    simpa [text, pieces, intercalate_split] using h.1.normalize_append_cons hc t

/-- The items of a selector list are normalized one by one. -/
theorem normalize_list_append (hne : items ≠ []) (h : ∀ item ∈ items, item.Settles s)
    (t : Text) : normalize (list items ++ '{' :: t) = normalized items ++ '{' :: normalize t := by
  rw [normalized, intercalate_flatMap [','] fun item hitem => (h item hitem).pieces_ne_nil]
  induction items with
  | nil => exact absurd rfl hne
  | cons item items ih =>
    rw [List.forall_mem_cons] at h
    cases items with
    | nil => simpa [list] using h.1.normalize_append (by decide) t
    | cons next items =>
      have ih := ih (List.cons_ne_nil next items) h.2
      rw [list, List.map_cons] at ih
      rw [list, List.map_cons, List.map_cons, List.intercalate_cons_cons, List.append_assoc,
        List.append_assoc, List.singleton_append, h.1.normalize_append (by decide), ih]
      simp [List.intercalate_cons_cons]

/-- A piece consists of what its item is written with, and of what normalizing adds. -/
theorem Settles.mem_pieces (h : item.Settles s) {p : Text} (hp : p ∈ item.pieces) {c : Char}
    (hc : c ∈ p) : c ∈ item.text ∨ c ∈ added := by
  have hadded : ' ' ∈ added ∧ ∀ d ∈ anchor, d ∈ added := by decide +kernel
  cases item with
  | plain t =>
    rw [List.mem_singleton.mp hp] at hc
    rcases mem_flattenCombinators hc with hc | rfl
    · exact .inl hc
    · exact .inr hadded.1
  | named a =>
    obtain ⟨r, hr, rfl⟩ := List.mem_map.mp hp
    rcases Reading.mem_flatten_text hc with hc | rfl | hc
    · rcases h.1.1.isFound.mem_reading hr hc with hc | hc | rfl
      · exact .inl (List.mem_append_left _ hc)
      · exact .inl (List.mem_append_right _ (List.mem_append_right _ hc))
      · exact .inr hadded.1
    · exact .inr hadded.1
    · exact .inr (hadded.2 c hc)
  | several t => exact mem_normalize ((infix_of_mem_split hp).subset hc)

theorem isRun_normalized (h : ∀ item ∈ items, item.Settles s) (hrun : IsRun (list items)) :
    IsRun (normalized items) := by
  have hadded : ∀ c ∈ added, c ≠ ';' ∧ c ≠ '{' ∧ c ≠ '}' := by decide +kernel
  intro c hc
  rcases mem_intercalate hc with hc | ⟨p, hp, hc⟩
  · rw [List.mem_singleton.mp hc]
    decide
  · obtain ⟨item, hitem, hp⟩ := List.mem_flatMap.mp hp
    rcases (h item hitem).mem_pieces hp hc with hc | hc
    · exact hrun c ((infix_intercalate [','] (List.mem_map_of_mem hitem)).subset hc)
    · exact hadded c hc

/-- No comma is in a piece: the commas between arguments separate pieces. -/
theorem Settles.not_mem_pieces (h : item.Settles s) : ∀ p ∈ item.pieces, ',' ∉ p := by
  cases item with
  | plain t =>
    rw [pieces, List.forall_mem_singleton]
    exact fun hc => (mem_flattenCombinators hc).elim h.2 (by decide)
  | named a =>
    rw [pieces, List.forall_mem_map]
    obtain ⟨hread, hcomma⟩ := h.1
    have hafter : ',' ∉ a.after := fun hc => (hread.tail _ hc).1 rfl
    have hargument : ∀ {arguments x}, a.arguments = some arguments → x ∈ arguments →
        ',' ∉ trim x := fun harguments hx hc =>
      ((hread.arguments _ harguments _ hx).2.2 _ ((trim_isInfix _).subset hc)).2.2 rfl
    intro r hr hc
    obtain ⟨hbefore, hbehind⟩ := hread.isFound.sides_of_mem_readings hr
    rcases Reading.mem_flatten_text hc with hc | hc
    · rcases List.mem_append.mp hc with hc | hc
      · rcases hbefore with heq | heq | ⟨arguments, harguments, x, hx, heq⟩ <;> rw [heq] at hc
        · exact hcomma hc
        · exact absurd hc List.not_mem_nil
        · exact hargument harguments hx (by simpa using hc)
      · rcases hbehind with heq | ⟨arguments, harguments, x, hx, heq⟩ <;> rw [heq] at hc
        · exact hafter hc
        · exact (List.mem_append.mp hc).elim (hargument harguments hx) hafter
    · exact absurd hc (by decide +kernel)
  | several t => exact fun p hp => not_mem_of_mem_split hp

/-! ## Scoping -/

theorem Settles.lacks_alternative (hs : s.IsTraceless) (h : item.Settles s) :
    ∀ p ∈ item.pieces, Lacks traces (s.alternative p) := by
  have hspace : Divides traces ' ' := by decide
  cases item with
  | plain t =>
    rw [pieces, List.forall_mem_singleton]
    exact Scope.lacks_alternative hs (lacks_flattenCombinators hspace h.1.2)
  | named a =>
    rw [pieces, List.forall_mem_map]
    exact fun r hr => Scope.lacks_alternative_text hs (h.2 r hr)
  | several t => exact fun p hp => (Scope.lacks_alternative_iff hs p).mpr (h.2 p hp)

/-- A scoped selector list has no trace of a marker. -/
theorem lacks_prelude (hs : s.IsTraceless) (h : ∀ item ∈ items, item.Settles s)
    (hne : items ≠ []) (hdirective : ¬ IsDirective (normalized items)) :
    Lacks traces (s.prelude (normalized items)) := by
  have hcomma : Divides traces ',' := by decide
  have hspace : Divides traces ' ' := by decide
  have hpieces : items.flatMap pieces ≠ [] := by
    obtain ⟨item, items, rfl⟩ := List.exists_cons_of_ne_nil hne
    rw [List.flatMap_cons]
    exact List.append_ne_nil_of_left_ne_nil (h item List.mem_cons_self).pieces_ne_nil _
  have hsplit : split ',' (normalized items) = items.flatMap pieces :=
    split_intercalate hpieces (List.forall_mem_flatMap.mpr fun item hitem =>
      (h item hitem).not_mem_pieces)
  have hselector : Lacks traces (s.selector (normalized items)) := by
    rw [Scope.selector, hsplit]
    refine (lacks_intercalate_cons hcomma (List.forall_mem_singleton.mpr hspace) _).mpr ?_
    exact List.forall_mem_map.mpr (List.forall_mem_flatMap.mpr fun item hitem =>
      (h item hitem).lacks_alternative hs)
  have hbefore : ∀ c ∈ (normalized items).takeWhile isBlank, Divides traces c :=
    fun c hc => divides_traces_of_isBlank (List.mem_takeWhile_imp hc)
  have hbehind : ∀ c ∈ blanksAtEnd (normalized items), Divides traces c :=
    fun c hc => divides_traces_of_isBlank (isBlank_of_mem_blanksAtEnd hc)
  rw [Scope.prelude, if_neg hdirective, s.selector_trim]
  exact lacks_append_right_of_divides hbehind ((lacks_append_of_divides hbefore _).mpr hselector)

end SelectorItem

/-! ## The whole way -/

namespace Scope

open SelectorItem

/-- A style rule leaves no trace of a marker: its selector list is one when it is normalized, and
its declarations do not name the host. -/
@[mk_iff]
structure SettlesRule (s : Scope) (items : List SelectorItem) (declarations : Text) : Prop where
  nonempty : items ≠ []
  settles : ∀ item ∈ items, item.Settles s
  run : IsRun (list items)
  ink : HasInk (normalized items)
  style : ¬ IsDirective (normalized items)
  braces : ∀ c ∈ declarations, c ≠ '{' ∧ c ≠ '}'
  clean : IsClean declarations

/-- A condition under which there are rules, and which does not name the host. -/
@[mk_iff]
structure SettlesCondition (condition : Text) : Prop where
  run : IsRun condition
  level : OpensLevel condition
  clean : IsClean condition

instance (s : Scope) (items : List SelectorItem) (declarations : Text) :
    Decidable (s.SettlesRule items declarations) :=
  decidable_of_iff' _ (s.settlesRule_iff items declarations)

instance (condition : Text) : Decidable (SettlesCondition condition) :=
  decidable_of_iff' _ (settlesCondition_iff condition)

/-- No marker is seen in a stylesheet for the document. -/
theorem lacks_encapsulate {s : Scope} (hs : s.IsTraceless) (hscope : s.content ≠ [])
    {styles : Styles (List SelectorItem)} (hstyles : styles.All s.SettlesRule SettlesCondition)
    (hcomments : Comment.reader.found (styles.text list) = [])
    (hdirectives : ∀ d : Directive, d.reader.found (styles.text list) = []) :
    Lacks traces (s.encapsulate (styles.text list)) := by
  -- the text is normalized as a whole, which flattens declarations and conditions too
  have hspace : Divides traces ' ' := by decide
  have hbraces : ∀ {t : Text}, (∀ c ∈ t, c ≠ '{' ∧ c ≠ '}') →
      ∀ c ∈ flattenCombinators t, c ≠ '{' ∧ c ≠ '}' := by
    intro t ht c hc
    rcases mem_flattenCombinators hc with hc | rfl
    · exact ht c hc
    · decide
  have hrun : ∀ {t : Text}, IsRun t → IsRun (flattenCombinators t) := by
    intro t ht c hc
    rcases mem_flattenCombinators hc with hc | rfl
    · exact ht c hc
    · decide
  have hstrip : Comment.strip (styles.text list) = styles.text list :=
    Comment.strip_of_found_eq_nil hcomments
  have hnormalized : styles.IsNormalizedBy list normalized :=
    hstyles.imp
      (fun items declarations h => ⟨normalize_list_append h.nonempty h.settles, h.clean.1⟩)
      fun condition h => h.clean.1
  have hwritten : (styles.map flattenCombinators).IsWritten normalized :=
    (hstyles.imp
      (fun items declarations h => ⟨⟨isRun_normalized h.settles h.run, h.ink,
        fun hlevel => h.style hlevel.isDirective⟩, hbraces h.braces⟩)
      fun condition h => ⟨hrun h.run, h.level.flattenCombinators⟩).map
  have hlacks : Lacks traces ((styles.map flattenCombinators).text (s.prelude ∘ normalized)) :=
    Styles.lacks_text (by decide) (by decide) (fun c => divides_traces_of_isBlank)
      (hstyles.imp
        (fun items declarations h => ⟨lacks_prelude hs h.settles h.nonempty h.style,
          lacks_flattenCombinators hspace h.clean.2⟩)
        fun condition h => lacks_flattenCombinators hspace h.clean.2).map
  have hfound : ∀ d : Directive, d.reader.found (Comment.strip (styles.text list)) = [] :=
    fun d => (congrArg d.reader.found hstrip).trans (hdirectives d)
  rw [s.encapsulate_of_found_eq_nil hscope hfound, hstrip,
    Comment.sourceMap_of_found_eq_nil hcomments, List.append_nil, hnormalized.normalize_text,
    hwritten.rules_text]
  exact hlacks.of_isInfix (trim_isInfix _)

/-- The host before and behind other selectors and more than once in one, and its ancestors under a
condition. -/
theorem lacks_encapsulate_nested :
    Lacks traces (Scope.encapsulate { content := "c".toList, host := "h".toList }
      (":HOST(.x, .y) b, a > d:host, :host .k:host(.l) \x7be: f\x7d " ++
        "@media m \x7b:host-context(.z) a \x7b\x7d\x7d").toList) := by
  have hs : IsTraceless { content := "c".toList, host := "h".toList } :=
    ⟨by decide, by decide +kernel, by decide⟩
  refine @lacks_encapsulate _ hs (by decide)
    (.rule
      [.named ⟨[], false, ":HOST".toList, some [".x".toList, " .y".toList], " b".toList⟩,
        .named ⟨" a > d".toList, false, ":host".toList, none, []⟩,
        .several " :host .k:host(.l) ".toList] "e: f".toList
      (.group " @media m ".toList
        (.rule [.named ⟨[], true, ":host-context".toList, some [".z".toList], " a ".toList⟩] []
          (.blank [])) (.blank [])))
    (by decide +kernel) (by decide +kernel) fun d => ?_
  cases d <;> decide +kernel

/-- The anchor of a host that is not the beginning of its compound selector stays where a combinator
follows. -/
theorem encapsulate_leaks_anchor :
    ¬ ∀ (s : Scope) (a : Named), s.IsTraceless → s.content ≠ [] → s.mode = .strict → a.IsRead →
      IsRun a.text → Lacks traces a.text →
        Lacks traces (s.encapsulate (a.text ++ "\x7b\x7d".toList)) := by
  intro h
  have hleak := h { content := "c".toList, host := "h".toList }
    ⟨"a".toList, false, ":host".toList, none, " b ".toList⟩
    ⟨by decide, by decide +kernel, by decide⟩ (by decide) rfl (by decide +kernel)
    (by decide +kernel) (by decide +kernel)
  exact absurd hleak (by decide +kernel)

end Scope

end ScopedStyles
