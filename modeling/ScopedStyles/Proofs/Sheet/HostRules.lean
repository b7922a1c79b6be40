import ScopedStyles.Proofs.Selector.Spacing
import ScopedStyles.Proofs.Sheet.Declarations

/-!
# Rules for the host

What becomes of a rule for the host element (`Scope.encapsulate_hostRule`): the host attribute
stands for the name of the host, once for each argument, and every compound selector behind it gets
the content attribute. An argument of `:host-context` may also hold for an ancestor, outside the
component, and is written a second time for that.
-/

namespace ScopedStyles

open Text Selector

/-- A rule for the host element, if it matches one of the arguments. -/
structure HostRule where
  /-- Whether an ancestor of the host element may match the argument instead. -/
  isContext : Bool
  /-- The selectors between the parentheses. -/
  arguments : List Text
  /-- The selector for elements of the component that follows, with its combinator. -/
  tail : Text
  /-- The declarations. -/
  declarations : Text
  deriving DecidableEq, Repr

namespace HostRule

/-- What is written differently before selectors are scoped. -/
def reserved : List (Letters × Text) :=
  Host.words ++ [(.exact, Comment.opening), (.anyCase, Directive.stem)]

/-- The text may be an argument: it is one compound selector, and not that of the scope. -/
structure IsArgument (s : Scope) (a : Text) : Prop where
  nonempty : a ≠ []
  foreign : ¬ s.content <+: a
  compound : ∀ c ∈ a, ¬ isBlank c ∧ c ∉ ",()\x7b\x7d;>+~/".toList
  lacks : Lacks reserved a

/-- The text is empty or begins with a combinator, and stays inside the component. -/
structure IsTail (t : Text) : Prop where
  head : ∀ c ∈ t.head?, isCombinator c
  last : ∀ c ∈ t.getLast?, ¬ isBlank c
  line : ∀ c ∈ t, c ∉ ",()\x7b\x7d;/\n".toList
  shallow : ¬ includes .exact ">>>".toList t
  lacks : Lacks reserved t

/-- The rule goes through as it is, but for its selector. -/
structure IsExpandable (s : Scope) (r : HostRule) : Prop where
  nonempty : r.arguments ≠ []
  arguments : ∀ a ∈ r.arguments, IsArgument s a
  tail : IsTail r.tail
  declarations : ∀ c ∈ r.declarations, c ≠ '{' ∧ c ≠ '}'
  lacks : Lacks reserved r.declarations

/-- The rule as it is written. -/
def text (r : HostRule) : Text :=
  Host.Named.keyword r.isContext ++ '(' :: ([','].intercalate r.arguments ++
    ')' :: (r.tail ++ ' ' :: '{' :: (r.declarations ++ ['}'])))

/-- The selectors of the rule, scoped: the host attribute with an argument beside or before it, and
the content attribute in every compound selector behind. -/
def selectors (s : Scope) (r : HostRule) : List Text :=
  let host := '[' :: s.host ++ [']']
  let tail := eachCompound (place ('[' :: s.content ++ [']'])) r.tail
  r.arguments.flatMap fun a =>
    (host ++ (a ++ tail)) :: if r.isContext then [a ++ ' ' :: (host ++ tail)] else []

/-! ## Normalizing -/

/-- The selector of the rule. -/
def named (r : HostRule) : Host.Named where
  before := []
  isContext := r.isContext
  word := Host.Named.keyword r.isContext
  arguments := some r.arguments
  after := r.tail ++ [' ']

variable {s : Scope} {r : HostRule}

theorem text_eq (r : HostRule) : r.text = r.named.text ++ '{' :: (r.declarations ++ ['}']) := by
  simp [text, Host.Named.text, Host.Named.behindWord, named]

theorem lacks_names {t : Text} (h : Lacks reserved t) : Lacks Host.names t :=
  h.of_subset fun _ hw => List.mem_append_left _ (List.mem_append_left _ hw)

theorem lacks_piercing {t : Text} (h : Lacks reserved t) : Lacks Host.piercing t :=
  h.of_subset fun _ hw => List.mem_append_left _ (List.mem_append_right _ hw)

theorem not_includes_marker {t : Text} (h : Lacks reserved t) : ¬ includes .anyCase Host.marker t :=
  (Host.lacks_names_iff.mp (lacks_names h)).2.1

theorem divides_of_isCombinator {c : Char} (hc : isCombinator c) : Divides reserved c := by
  rcases isCombinator_iff.mp hc with rfl | hsign
  · decide +kernel
  · simp only [isSign, Bool.or_eq_true, beq_iff_eq] at hsign
    rcases hsign with (rfl | rfl) | rfl <;> decide +kernel

/-- A space behind a text does not matter. -/
theorem lacks_append_space {t : Text} (h : Lacks reserved t) : Lacks reserved (t ++ [' ']) := by
  have hspace : Divides reserved ' ' := divides_of_isCombinator (by decide)
  exact (lacks_append_cons hspace t []).mpr ⟨h, hspace.lacks_nil⟩

/-- No word reaches from an argument into the tail. -/
theorem IsTail.lacks_append {a t : Text} (ht : IsTail t) (ha : Lacks reserved a) :
    Lacks reserved (a ++ t) := by
  cases t with
  | nil => rwa [List.append_nil]
  | cons c t =>
    have hc := divides_of_isCombinator (ht.head c rfl)
    exact (lacks_append_cons hc a t).mpr ⟨ha, (lacks_cons hc t).mp ht.lacks⟩

theorem IsArgument.trim_eq {a : Text} (ha : IsArgument s a) : trim a = a := by
  rw [trim, trimStart_eq_self fun c hc => (ha.compound c (List.mem_of_mem_head? hc)).1,
    trimEnd_eq_self fun c hc => (ha.compound c (List.mem_of_getLast? hc)).1]

theorem IsArgument.not_isCombinator {a : Text} (ha : IsArgument s a) :
    ∀ c ∈ a, ¬ isCombinator c ∧ ¬ isBlank c := by
  intro c hc
  obtain ⟨hblank, hcompound⟩ := ha.compound c hc
  refine ⟨fun hcombinator => ?_, hblank⟩
  rcases isCombinator_iff.mp hcombinator with rfl | hsign
  · exact hblank (by decide)
  · simp only [isSign, Bool.or_eq_true, beq_iff_eq] at hsign
    rcases hsign with (rfl | rfl) | rfl <;> exact hcompound (by decide)

theorem IsTail.lacks_deep {t : Text} (ht : IsTail t) : Lacks deep t := by
  have hslash : '/' ∉ t := fun h => ht.line '/' h (by decide)
  simp only [Lacks, deep, List.forall_mem_cons]
  exact ⟨ht.shallow, not_includes_of_not_mem (by decide) hslash,
    fun w hw => absurd hw List.not_mem_nil⟩

/-- No deep combinator reaches from an argument into the tail. -/
theorem IsTail.lacks_deep_append {a t : Text} (ht : IsTail t) (ha : IsArgument s a) :
    Lacks deep (a ++ t) := by
  -- no `>>>` begins in the argument, which has none of its characters
  have hangle : ∀ c ∈ a, ¬ Letters.exact.agree '>' c := by
    intro c hc hagree
    obtain rfl : '>' = c := eq_of_beq hagree
    exact (ha.compound '>' hc).2 (by decide)
  have hslash : '/' ∉ a ++ t := by
    rw [List.mem_append, not_or]
    exact ⟨fun h => (ha.compound '/' h).2 (by decide), fun h => ht.line '/' h (by decide)⟩
  simp only [Lacks, deep, List.forall_mem_cons]
  refine ⟨?_, not_includes_of_not_mem (by decide) hslash, fun w hw => absurd hw List.not_mem_nil⟩
  rw [show ">>>".toList = '>' :: ">>".toList from rfl, includes_append_of_disagree hangle]
  exact ht.shallow

theorem IsTail.last_append {a t : Text} (ht : IsTail t) (ha : IsArgument s a) :
    ∀ c ∈ (a ++ t).getLast?, ¬ isBlank c := by
  intro c hc
  rw [List.getLast?_append, Option.mem_def, Option.or_eq_some_iff] at hc
  rcases hc with hc | ⟨-, hc⟩
  · exact ht.last c hc
  · exact (ha.compound c (List.mem_of_getLast? hc)).1

theorem IsTail.line_append {a t : Text} (ht : IsTail t) (ha : IsArgument s a) : '\n' ∉ a ++ t := by
  rw [List.mem_append, not_or]
  exact ⟨fun h => (ha.compound '\n' h).1 (by decide), fun h => ht.line '\n' h (by decide)⟩

theorem IsExpandable.isRead (h : r.IsExpandable s) : r.named.IsRead where
  word := by
    have := after?_append_self .anyCase (Host.Named.keyword r.isContext) []
    rwa [List.append_nil] at this
  before := show Lacks Host.names [] by decide
  after := lacks_names (lacks_append_space h.tail.lacks)
  tail := by
    intro c hc
    rcases List.mem_append.mp hc with hc | hc
    · have hline := h.tail.line c hc
      constructor <;> rintro rfl <;> exact hline (by decide)
    · rw [List.mem_singleton.mp hc]
      decide
  bare := fun harguments => absurd harguments (Option.some_ne_none _)
  shorter := fun harguments => absurd harguments (Option.some_ne_none _)
  nonempty := fun harguments => h.nonempty (Option.some.inj harguments)
  arguments := by
    rintro arguments harguments a ha
    obtain rfl := Option.some.inj harguments
    have hargument := h.arguments a ha
    refine ⟨lacks_names hargument.lacks, ?_, fun c hc => ?_⟩
    · rw [hargument.trim_eq, named, ← List.append_assoc]
      exact lacks_names (lacks_append_space (h.tail.lacks_append hargument.lacks))
    · have hcompound := (hargument.compound c hc).2
      refine ⟨?_, ?_, ?_⟩ <;> rintro rfl <;> exact hcompound (by decide)

theorem readings_named (h : r.IsExpandable s) : r.named.readings = r.arguments.flatMap fun a =>
    ⟨[], a ++ (r.tail ++ [' '])⟩ ::
      if r.isContext then [⟨' ' :: (a ++ [' ']), r.tail ++ [' ']⟩] else [] := by
  obtain ⟨behind, rs, hexpansions, hreadings⟩ := h.isRead.isFound.exists_expansions
  rw [hreadings, show r.named.before = [] from rfl, ← hexpansions, Host.Named.expansions, named]
  refine List.flatMap_congr fun a ha => ?_
  rw [Host.Named.expansion, (h.arguments a ha).trim_eq]

end HostRule

/-! ## Scoping -/

/-- The scope is strict, and its attributes are written as they are. -/
structure Scope.IsStrict (s : Scope) : Prop where
  mode : s.mode = .strict
  nonempty : s.content ≠ []
  content : ¬ includes .anyCase Host.marker s.content
  host : ¬ includes .anyCase Host.marker s.host
  value : ¬ includes .exact "[is=".toList s.content

namespace Scope.IsStrict

open HostRule

variable {s : Scope} {a t : Text}

theorem contentAttribute_eq (hs : s.IsStrict) : s.contentAttribute = '[' :: s.content ++ [']'] := by
  have hawaits : isReader.AwaitsLiteral .exact "[is=".toList := by
    intro u hu
    show isValue? u = none
    rw [isValue?, hu, Option.bind_none]
  rw [contentAttribute, unwrapIs, Reader.substitute_of_not_includes hawaits hs.value]

theorem hostText_eq (hs : s.IsStrict) : s.hostText = '[' :: s.host ++ [']'] := by
  rw [hostText, hs.mode]

theorem not_includes_hostText (hs : s.IsStrict) (ha : ¬ includes .anyCase Host.marker a) :
    ¬ includes .anyCase Host.marker (s.hostText ++ a) := by
  have hopen : Divides [(Letters.anyCase, Host.marker)] '[' := by decide
  have hclose : Divides [(Letters.anyCase, Host.marker)] ']' := by decide
  rw [hs.hostText_eq, List.append_assoc, List.cons_append, List.singleton_append]
  exact lacks_singleton.mp ((lacks_cons hopen _).mpr
    ((lacks_append_cons hclose _ _).mpr ⟨lacks_singleton.mpr hs.host, lacks_singleton.mpr ha⟩))

/-- Without deep combinators an alternative with an anchor is scoped as a whole. -/
theorem alternative_eq (hs : s.IsStrict) {x y b b' : Text} (hb : ∀ c ∈ b, isBlank c)
    (hb' : ∀ c ∈ b', isBlank c) (hxhead : ∀ c ∈ x.head?, ¬ isBlank c)
    (hylast : ∀ c ∈ y.getLast?, ¬ isBlank c) (hx : Lacks deep x) (hy : Lacks deep y)
    (hxline : ∀ l ∈ fromLineStarts x, ∀ c rest, l = s.content ++ c :: rest → ¬ isBoundary c)
    (hyline : '\n' ∉ y) :
    s.alternative ((b ++ x) ++ (Host.anchor ++ (y ++ b'))) =
      s.strictly (x ++ (Host.anchor ++ y)) := by
  have hstart : trimStart (b ++ x) = x := by
    rw [trimStart_append_of_blanks hb, trimStart_eq_self hxhead]
  have hend : trimEnd (y ++ b') = y := by rw [trimEnd_append_of_blanks hb', trimEnd_eq_self hylast]
  have hscoped : ¬ isScoped s.content (x ++ (Host.anchor ++ y)) := by
    refine not_isScoped_append_anchor (Host.not_includes_anchor hs.content) hxline ?_
    rw [afterBreaks_eq_nil hyline]
    exact fun l hl => absurd hl List.not_mem_nil
  rw [alternative_append_anchor (by rwa [hstart]), hstart, hend, between_of_lacks hy]
  simp [shallow, hscoped, hs.mode]

/-- The host attribute stands for the anchor. -/
theorem strictly_anchor_alike (hs : s.IsStrict) {x y : Text}
    (hx : ¬ includes .anyCase Host.marker x) (hlast : (chain x).last = [])
    (hy : ∀ d ∈ y, ¬ isCombinator d ∧ ¬ isBlank d)
    (hlacks : ¬ includes .anyCase Host.marker y) (ht : IsTail t) :
    Alike (s.strictly (x ++ (Host.anchor ++ (y ++ t))))
      (spaced (chain x).links ++ ('[' :: s.host ++ [']'] ++
        (y ++ eachCompound (place ('[' :: s.content ++ [']'])) t))) := by
  rw [← hs.hostText_eq, ← hs.contentAttribute_eq]
  exact strictly_alike hx hlast (fun d hd => (hy d hd).1)
    (fun d hd => (hy d (List.mem_of_getLast? hd)).2) (hs.not_includes_hostText hlacks)
    (not_includes_marker ht.lacks) ht.head ht.last

/-- An argument beside the host attribute. -/
theorem alternative_host_alike (hs : s.IsStrict) (ha : IsArgument s a) (ht : IsTail t) :
    Alike (s.alternative (Host.Reading.text ⟨[], a ++ (t ++ [' '])⟩))
      ('[' :: s.host ++ [']'] ++ (a ++ eachCompound (place ('[' :: s.content ++ [']'])) t)) := by
  have hspace : ∀ c ∈ [' '], isBlank c := by decide
  have hnone : ∀ c ∈ ([] : Text), isBlank c := by decide
  have hxline : ∀ l ∈ fromLineStarts [], ∀ c rest, l = s.content ++ c :: rest → ¬ isBoundary c := by
    intro l hl c rest hrest
    obtain rfl := List.mem_singleton.mp hl
    simp at hrest
  have hwhole : s.alternative (([] ++ []) ++ (Host.anchor ++ ((a ++ t) ++ [' ']))) =
      s.strictly ([] ++ (Host.anchor ++ (a ++ t))) :=
    hs.alternative_eq hnone hspace (by simp) (ht.last_append ha) (by decide)
      (ht.lacks_deep_append ha) hxline (ht.line_append ha)
  have halike : Alike (s.strictly ([] ++ (Host.anchor ++ (a ++ t))))
      (spaced (chain []).links ++ ('[' :: s.host ++ [']'] ++
        (a ++ eachCompound (place ('[' :: s.content ++ [']'])) t))) :=
    hs.strictly_anchor_alike (by decide) (by rw [chain_nil]) ha.not_isCombinator
      (not_includes_marker ha.lacks) ht
  rw [List.append_nil ([] : Text), List.append_assoc a] at hwhole
  rw [chain_nil] at halike
  show Alike (s.alternative ([] ++ (Host.anchor ++ (a ++ (t ++ [' ']))))) _
  rwa [hwhole]

/-- An argument before the host attribute. -/
theorem alternative_context_alike (hs : s.IsStrict) (ha : IsArgument s a) (ht : IsTail t) :
    Alike (s.alternative (Host.Reading.text ⟨' ' :: (a ++ [' ']), t ++ [' ']⟩))
      (a ++ ' ' :: ('[' :: s.host ++ [']'] ++
        eachCompound (place ('[' :: s.content ++ [']'])) t)) := by
  have hspace : ∀ c ∈ [' '], isBlank c := by decide
  have hxline : ∀ l ∈ fromLineStarts (a ++ [' ']), ∀ c rest, l = s.content ++ c :: rest →
      ¬ isBoundary c := by
    have hline : '\n' ∉ a ++ [' '] := by
      rw [List.mem_append, not_or]
      exact ⟨fun h => (ha.compound '\n' h).1 (by decide), by decide⟩
    intro l hl c rest hrest
    rw [fromLineStarts, afterBreaks_eq_nil hline] at hl
    obtain rfl := List.mem_singleton.mp hl
    -- a character follows the scope, so the scope ends where the argument does or before
    have hbegins : s.content <+: a ++ [' '] := hrest ▸ List.prefix_append s.content (c :: rest)
    have hlength : s.content.length ≤ a.length := by
      have := congrArg List.length hrest
      simp only [List.length_append, List.length_cons, List.length_nil] at this
      omega
    exact absurd (List.prefix_of_prefix_length_le hbegins (List.prefix_append a _) hlength)
      ha.foreign
  have hxhead : ∀ c ∈ (a ++ [' ']).head?, ¬ isBlank c := by
    intro c hc
    rw [List.head?_append_of_ne_nil _ ha.nonempty] at hc
    exact (ha.compound c (List.mem_of_mem_head? hc)).1
  have hxdeep : Lacks deep (a ++ [' ']) := by
    have hdivides : Divides deep ' ' := by decide
    exact (lacks_append_cons hdivides a []).mpr
      ⟨(ht.lacks_deep_append ha).of_isInfix (List.prefix_append a t).isInfix, hdivides.lacks_nil⟩
  have hwhole : s.alternative (([' '] ++ (a ++ [' '])) ++ (Host.anchor ++ (t ++ [' ']))) =
      s.strictly ((a ++ [' ']) ++ (Host.anchor ++ t)) :=
    hs.alternative_eq hspace hspace hxhead ht.last hxdeep ht.lacks_deep hxline
      (fun h => ht.line '\n' h (by decide))
  have hchain : chain (a ++ [' ']) = ⟨[(a, ' ')], []⟩ := by
    rw [chain_append_cons (fun c hc => (ha.not_isCombinator c hc).1) (by decide)]
    show Chain.mk ((a, ' ') :: (chain []).links) (chain []).last = _
    rw [chain_nil]
  have hlacks : ¬ includes .anyCase Host.marker (a ++ [' ']) :=
    not_includes_marker (lacks_append_space ha.lacks)
  have halike : Alike (s.strictly ((a ++ [' ']) ++ (Host.anchor ++ ([] ++ t))))
      (spaced (chain (a ++ [' '])).links ++ ('[' :: s.host ++ [']'] ++
        ([] ++ eachCompound (place ('[' :: s.content ++ [']'])) t))) :=
    hs.strictly_anchor_alike hlacks (by rw [hchain]) (fun c hc => absurd hc List.not_mem_nil)
      (by decide) ht
  have hspaced : spaced (chain (a ++ [' '])).links = a ++ ([' '] ++ ' ' :: [' ']) := by
    rw [hchain]
    simp [spaced, ha.trim_eq]
  show Alike (s.alternative ((' ' :: (a ++ [' '])) ++ (Host.anchor ++ (t ++ [' '])))) _
  rw [hspaced] at halike
  rw [List.singleton_append] at hwhole
  rw [hwhole]
  refine halike.trans ?_
  rw [List.append_assoc]
  exact (Alike.refl a).append ((alike_combinator (by decide) hspace hspace).append (Alike.refl _))

end Scope.IsStrict

namespace HostRule

variable {s : Scope} {r : HostRule}

/-- One by one, the alternatives of the rule are scoped as its arguments say. -/
theorem alternatives_alike (hs : s.IsStrict) (h : r.IsExpandable s) :
    List.Forall₂ Alike (r.named.readings.map fun reading => s.alternative reading.text)
      (r.selectors s) := by
  rw [readings_named h, selectors]
  have harguments := h.arguments
  generalize r.arguments = arguments at harguments
  induction arguments with
  | nil => exact List.Forall₂.nil
  | cons a arguments ih =>
    rw [List.forall_mem_cons] at harguments
    rw [List.flatMap_cons, List.flatMap_cons, List.map_append]
    refine List.rel_append ?_ (ih harguments.2)
    refine List.Forall₂.cons (hs.alternative_host_alike harguments.1 h.tail) ?_
    cases r.isContext
    · exact List.Forall₂.nil
    · exact List.Forall₂.cons (hs.alternative_context_alike harguments.1 h.tail) List.Forall₂.nil

/-- The selector list of the rule, normalized. -/
def normalized (r : HostRule) : Text := [','].intercalate (r.named.readings.map Host.Reading.text)

/-- Every reading of the rule has what it needs to go through unchanged, and a space at its end. -/
theorem IsExpandable.readings (h : r.IsExpandable s) : ∀ reading ∈ r.named.readings,
    (∃ y, reading.behind = y ++ [' '] ∧ ∀ c ∈ y.getLast?, ¬ isBlank c) ∧
      Lacks reserved reading.before ∧ Lacks reserved reading.behind ∧
        ∀ c ∈ reading.before ++ reading.behind, c ∉ ",;\x7b\x7d".toList := by
  have hspace : Divides reserved ' ' := divides_of_isCombinator (by decide)
  have hblank : ∀ c ∈ [' '], c ∉ ",;\x7b\x7d".toList := by decide
  have htail : ∀ c ∈ r.tail ++ [' '], c ∉ ",;\x7b\x7d".toList := by
    have hfew : ",;\x7b\x7d".toList ⊆ ",()\x7b\x7d;/\n".toList := by decide
    rw [List.forall_mem_append]
    exact ⟨fun c hc hmem => h.tail.line c hc (hfew hmem), hblank⟩
  rw [readings_named h]
  intro reading hreading
  obtain ⟨a, ha, hreading⟩ := List.mem_flatMap.mp hreading
  have hargument := h.arguments a ha
  have hcompound : ∀ c ∈ a, c ∉ ",;\x7b\x7d".toList := by
    have hfew : ",;\x7b\x7d".toList ⊆ ",()\x7b\x7d;>+~/".toList := by decide
    exact fun c hc hmem => (hargument.compound c hc).2 (hfew hmem)
  rcases List.mem_cons.mp hreading with rfl | hreading
  · refine ⟨⟨a ++ r.tail, (List.append_assoc a _ _).symm, h.tail.last_append hargument⟩,
      hspace.lacks_nil, ?_, (List.forall_mem_append.mpr ⟨hcompound, htail⟩ : ∀ c ∈ a ++ _, _)⟩
    rw [← List.append_assoc]
    exact lacks_append_space (h.tail.lacks_append hargument.lacks)
  · split at hreading
    · obtain rfl := List.mem_singleton.mp hreading
      refine ⟨⟨r.tail, rfl, h.tail.last⟩,
        (lacks_cons hspace _).mpr (lacks_append_space hargument.lacks),
        lacks_append_space h.tail.lacks, List.forall_mem_append.mpr ⟨?_, htail⟩⟩
      exact List.forall_mem_cons.mpr
        ⟨hblank ' ' List.mem_cons_self, List.forall_mem_append.mpr ⟨hcompound, hblank⟩⟩
    · exact absurd hreading List.not_mem_nil

theorem IsExpandable.normalize_text (h : r.IsExpandable s) :
    Host.normalize r.text = r.normalized ++ '{' :: (r.declarations ++ ['}']) := by
  have hplain : Host.IsPlain (r.declarations ++ ['}']) := by
    have hclose : Divides Host.words '}' := by decide
    exact (lacks_append_cons hclose _ []).mpr
      ⟨h.lacks.of_subset (List.subset_append_left _ _), hclose.lacks_nil⟩
  have hflatten : ∀ reading ∈ r.named.readings, reading.flatten.text = reading.text := by
    intro reading hreading
    obtain ⟨-, hbefore, hbehind, -⟩ := h.readings reading hreading
    rw [Host.Reading.flatten, Host.flattenCombinators_of_lacks (lacks_piercing hbefore),
      Host.flattenCombinators_of_lacks (lacks_piercing hbehind)]
  rw [text_eq, h.isRead.isFound.normalize_append (by decide), Host.normalize_of_isPlain hplain,
    normalized, List.map_congr_left hflatten]

/-- Nothing in a reading would end it early. -/
theorem IsExpandable.not_mem_text (h : r.IsExpandable s) :
    ∀ p ∈ r.named.readings.map Host.Reading.text, ∀ c ∈ p, c ∉ ",;\x7b\x7d".toList := by
  have hanchor : ∀ c ∈ Host.anchor, c ∉ ",;\x7b\x7d".toList := by decide +kernel
  rintro p hp c hc
  obtain ⟨reading, hreading, rfl⟩ := List.mem_map.mp hp
  obtain ⟨-, -, -, hchars⟩ := h.readings reading hreading
  rw [List.forall_mem_append] at hchars
  rcases List.mem_append.mp hc with hc | hc
  · exact hchars.1 c hc
  · exact (List.mem_append.mp hc).elim (hanchor c) (hchars.2 c)

theorem IsExpandable.isRun_normalized (h : r.IsExpandable s) : IsRun r.normalized := by
  intro c hc
  rcases mem_intercalate hc with hc | ⟨p, hp, hc⟩
  · rw [List.mem_singleton.mp hc]
    decide
  · have hmem := h.not_mem_text p hp c hc
    refine ⟨?_, ?_, ?_⟩ <;> rintro rfl <;> exact hmem (by decide)

/-- The list begins with an anchor. -/
theorem IsExpandable.exists_normalized (h : r.IsExpandable s) :
    ∃ u, r.normalized = Host.anchor ++ u := by
  obtain ⟨behind, rs, -, hreadings⟩ := h.isRead.isFound.exists_expansions
  refine ⟨[','].intercalate (behind :: rs.map Host.Reading.text), ?_⟩
  rw [normalized, hreadings, append_intercalate_cons]
  rfl

/-- The list ends with a space. -/
theorem IsExpandable.blanksAtEnd_normalized (h : r.IsExpandable s) :
    blanksAtEnd r.normalized = [' '] := by
  have hspace : ∀ c ∈ [' '], isBlank c := by decide
  obtain ⟨behind, rs, -, hreadings⟩ := h.isRead.isFound.exists_expansions
  obtain ⟨readings, reading, hlast⟩ :
      ∃ readings reading, r.named.readings = readings ++ [reading] := by
    rw [hreadings]
    exact ⟨_, _, (List.dropLast_append_getLast (List.cons_ne_nil _ _)).symm⟩
  obtain ⟨⟨y, hy, hylast⟩, -⟩ := h.readings reading (by rw [hlast]; simp)
  obtain ⟨x, hx⟩ := exists_intercalate_append [','] (readings.map Host.Reading.text) reading.text
  -- the anchor in the last reading keeps the blanks at the end from reaching further back
  have hanchor : Host.anchor = "-shadowcsshost-no-combinato".toList ++ ['r'] := rfl
  have hend : r.normalized =
      (x ++ (reading.before ++ "-shadowcsshost-no-combinato".toList)) ++ 'r' :: (y ++ [' ']) := by
    rw [normalized, hlast, List.map_append, List.map_singleton, hx, Host.Reading.text, hy, hanchor]
    simp
  rw [hend, blanksAtEnd_append_cons (by decide), blanksAtEnd_append_of_blanks hspace,
    blanksAtEnd_eq_nil hylast, List.nil_append]

/-- One by one the alternatives of the list are scoped. -/
theorem IsExpandable.selector_normalized (h : r.IsExpandable s) : s.selector r.normalized =
    ", ".toList.intercalate (r.named.readings.map fun reading => s.alternative reading.text) := by
  have hne : r.named.readings.map Host.Reading.text ≠ [] := by
    obtain ⟨behind, rs, -, hreadings⟩ := h.isRead.isFound.exists_expansions
    simp [hreadings]
  have hcomma : ∀ p ∈ r.named.readings.map Host.Reading.text, ',' ∉ p :=
    fun p hp hc => h.not_mem_text p hp ',' hc (by decide)
  rw [Scope.selector, normalized, split_intercalate hne hcomma, List.map_map]
  rfl

/-- The rule has no comments and no directives. -/
theorem IsExpandable.lacks_text (h : r.IsExpandable s) :
    Lacks [(.exact, Comment.opening), (.anyCase, Directive.stem)] r.text := by
  have hdivides : ∀ c ∈ "(),\x7b\x7d ".toList,
      Divides [(.exact, Comment.opening), (.anyCase, Directive.stem)] c := by decide +kernel
  have hfew : [(.exact, Comment.opening), (.anyCase, Directive.stem)] ⊆ reserved :=
    List.subset_append_right _ _
  have hkeyword : Lacks [(.exact, Comment.opening), (.anyCase, Directive.stem)]
      (Host.Named.keyword r.isContext) := by
    cases r.isContext <;> decide +kernel
  have hend := (hdivides '}' (by decide)).lacks_nil
  rw [text, lacks_append_cons (hdivides '(' (by decide)),
    lacks_append_cons (hdivides ')' (by decide)), lacks_append_cons (hdivides ' ' (by decide)),
    lacks_cons (hdivides '{' (by decide)),
    lacks_append_cons (hdivides '}' (by decide)), lacks_intercalate (hdivides ',' (by decide))]
  exact ⟨hkeyword, fun a ha => (h.arguments a ha).lacks.of_subset hfew,
    h.tail.lacks.of_subset hfew, h.lacks.of_subset hfew, hend⟩

/-- The rule is normalized, and its selector list is scoped. -/
theorem IsExpandable.rules_text (h : r.IsExpandable s) : s.rules (Host.normalize r.text) =
    s.selector r.normalized ++ ' ' :: '{' :: (r.declarations ++ ['}']) := by
  obtain ⟨u, hu⟩ := h.exists_normalized
  have hhead : r.normalized = '-' :: ("shadowcsshost-no-combinator".toList ++ u) := hu
  have hinside : ∀ w : Text, w.head? = some '@' → ¬ w <+: trim r.normalized := by
    intro w hw hbegins
    rw [hhead, trim_cons (by decide)] at hbegins
    cases w with
    | nil => simp at hw
    | cons c w =>
      obtain ⟨rfl, -⟩ := List.cons_prefix_cons.mp hbegins
      simp at hw
  have hstyle : Rule.IsStyle ⟨r.normalized, r.declarations⟩ := by
    refine ⟨h.isRun_normalized, ⟨'-', ?_, by decide⟩, ?_, h.declarations⟩
    · rw [hhead]
      exact List.mem_cons_self
    · rintro (hmedia | hsupports)
      · exact hinside _ rfl hmedia
      · exact hinside _ rfl hsupports
  have hprelude : s.prelude r.normalized = s.selector r.normalized ++ [' '] := by
    have hdirective : ¬ IsDirective r.normalized := fun hd => hinside ['@'] rfl hd.1
    have htake : r.normalized.takeWhile isBlank = [] := by
      rw [hhead]
      rfl
    rw [Scope.prelude, if_neg hdirective, htake, h.blanksAtEnd_normalized, s.selector_trim,
      List.nil_append]
  have hrules := s.rules_text_append hstyle (.inl fun c hc => absurd hc List.not_mem_nil)
  rw [s.rules_nil, List.append_nil, List.append_nil] at hrules
  rw [h.normalize_text]
  exact hrules.trans (by simp [Rule.text, hprelude])

/-- The first selector begins with the host attribute. -/
theorem IsExpandable.exists_selectors (h : r.IsExpandable s) :
    ∃ u, ", ".toList.intercalate (r.selectors s) = '[' :: u := by
  obtain ⟨a, arguments, harguments⟩ := List.exists_cons_of_ne_nil h.nonempty
  rw [selectors, harguments, List.flatMap_cons, List.cons_append, List.cons_append,
    List.cons_append]
  exact ⟨_, (append_intercalate_cons ", ".toList ['['] _ _).symm⟩

end HostRule

/-! ## The whole way -/

namespace Scope

open HostRule

/-- A rule for the host is written with the host attribute, once or twice for each argument. -/
theorem encapsulate_hostRule {s : Scope} {r : HostRule} (hs : s.IsStrict) (hr : r.IsExpandable s) :
    ∃ list, s.encapsulate r.text = list ++ ' ' :: '{' :: (r.declarations ++ ['}']) ∧
      squeeze list = squeeze (", ".toList.intercalate (r.selectors s)) := by
  have hlacks := hr.lacks_text
  simp only [Lacks, List.forall_mem_cons] at hlacks
  obtain ⟨hcomment, hdirective, -⟩ := hlacks
  have hstrip : Comment.strip r.text = r.text := Comment.strip_of_not_includes hcomment
  have hmap : Comment.sourceMap r.text = [] := by
    have hclose : r.text = (r.named.text ++ '{' :: r.declarations) ++ '}' :: [] := by
      rw [text_eq]
      simp
    rw [hclose, Comment.sourceMap_of_closes_block (by simp)]
  -- up to spacing the list is known, and with it that trimming leaves something
  have hsqueeze : squeeze (s.selector r.normalized) =
      squeeze (", ".toList.intercalate (r.selectors s)) := by
    rw [hr.selector_normalized]
    exact (Alike.intercalate _ (alternatives_alike hs hr)).squeeze_eq
  obtain ⟨u, hu⟩ := hr.exists_selectors
  have htrimmed : squeeze (trimStart (s.selector r.normalized)) =
      squeeze (", ".toList.intercalate (r.selectors s)) := by
    have hbracket : squeeze ('[' :: u) = '[' :: squeeze u := rfl
    rw [squeeze_trimStart, hsqueeze, hu, hbracket, trimStart_cons (by decide)]
  have hne : trimStart (s.selector r.normalized) ≠ [] := by
    intro hnil
    rw [hnil, hu] at htrimmed
    exact absurd htrimmed (List.cons_ne_nil '[' (squeeze u)).symm
  have hfound : ∀ d : Directive, d.reader.found (Comment.strip r.text) = [] := by
    rw [hstrip]
    exact Directive.found_of_not_includes hdirective
  refine ⟨trimStart (s.selector r.normalized), ?_, htrimmed⟩
  rw [s.encapsulate_of_found_eq_nil hs.nonempty hfound, hstrip, hr.rules_text, hmap,
    List.append_nil]
  calc trim (s.selector r.normalized ++ ' ' :: '{' :: (r.declarations ++ ['}']))
      = trim ((s.selector r.normalized ++ [' ']) ++ '{' :: (r.declarations ++ ['}'])) := by simp
    _ = trimStart (s.selector r.normalized ++ [' ']) ++ '{' :: (r.declarations ++ ['}']) := by
      rw [trim_append_cons (by decide), trimEnd_append_singleton (by decide)]
    _ = trimStart (s.selector r.normalized) ++ ' ' :: '{' :: (r.declarations ++ ['}']) := by
      rw [trimStart_append hne]
      simp

/-- Two arguments that may hold for an ancestor, and two compound selectors behind. -/
theorem encapsulate_hostRule_context :
    ∃ list, Scope.encapsulate { content := "c".toList, host := "h".toList }
        ":host-context(.x,#y:z) > a:hover b \x7bd: e\x7d".toList = list ++ " \x7bd: e\x7d".toList ∧
      squeeze list = squeeze ("[h].x > a[c]:hover b[c], .x [h] > a[c]:hover b[c], " ++
        "[h]#y:z > a[c]:hover b[c], #y:z [h] > a[c]:hover b[c]").toList := by
  have hs : Scope.IsStrict { content := "c".toList, host := "h".toList } :=
    ⟨rfl, by decide, by decide +kernel, by decide +kernel, by decide⟩
  have hr : HostRule.IsExpandable { content := "c".toList, host := "h".toList }
      ⟨true, [".x".toList, "#y:z".toList], " > a:hover b".toList, "d: e".toList⟩ := by
    have htail : IsTail " > a:hover b".toList := by
      refine ⟨fun c hc => ?_, fun c hc => ?_, by decide, by decide, by decide +kernel⟩
      · obtain rfl : ' ' = c := Option.some.inj hc
        decide
      · obtain rfl : 'b' = c := Option.some.inj hc
        decide
    refine ⟨by decide, ?_, htail, by decide, by decide +kernel⟩
    simp only [List.forall_mem_cons]
    exact ⟨⟨by decide, by decide, by decide, by decide +kernel⟩,
      ⟨by decide, by decide, by decide, by decide +kernel⟩, by simp⟩
  obtain ⟨list, hlist, hsqueeze⟩ := encapsulate_hostRule hs hr
  refine ⟨list, ?_, hsqueeze.trans (by decide +kernel)⟩
  exact Eq.trans (congrArg _ (by decide +kernel)) hlist

/-- An argument that begins a directive is no argument any more. -/
theorem encapsulate_hostRule_directive :
    ¬ ∀ (s : Scope) (r : HostRule), s.IsStrict → r.arguments ≠ [] →
      (∀ a ∈ r.arguments, a ≠ [] ∧ ¬ s.content <+: a ∧
        (∀ c ∈ a, ¬ isBlank c ∧ c ∉ ",()\x7b\x7d;>+~/@'\"".toList) ∧ Lacks Host.words a) →
      r.tail = [] → (∀ c ∈ r.declarations, c ≠ '{' ∧ c ≠ '}') → Lacks reserved r.declarations →
      ∃ list, s.encapsulate r.text = list ++ ' ' :: '{' :: (r.declarations ++ ['}']) ∧
        squeeze list = squeeze (", ".toList.intercalate (r.selectors s)) := by
  intro h
  obtain ⟨list, hlist, -⟩ := h { content := "c".toList, host := "h".toList }
    ⟨false, ["polyfill-rule".toList], [], "content: 'x'".toList⟩
    ⟨rfl, by decide, by decide +kernel, by decide +kernel, by decide⟩ (by decide)
    (by decide +kernel) rfl (by decide) (by decide +kernel)
  have houtput : Scope.encapsulate { content := "c".toList, host := "h".toList }
      (HostRule.text ⟨false, ["polyfill-rule".toList], [], "content: 'x'".toList⟩) =
        "[h]x \x7b\x7d".toList := by decide +kernel
  have hlength := congrArg List.length (houtput.symm.trans hlist)
  simp at hlength

end Scope

end ScopedStyles
