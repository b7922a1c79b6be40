import Mathlib.Tactic.MkIffOfInductiveProp
import ScopedStyles.Proofs.Host.Words
import ScopedStyles.Proofs.Text.Pieces
import ScopedStyles.Proofs.Text.Trim

/-!
# Selectors that name the host

What normalizing makes of a selector that names the host element once
(`Named.IsFound.normalize_append`): a selector list, with one or two alternatives for each argument.
`Reading` is one of them, by what stands on both sides of the anchor; what stands before the name
belongs to the first one only.
-/

namespace ScopedStyles.Host

open Text

/-- A selector with the anchor in it. -/
structure Reading where
  /-- What stands before the anchor. -/
  before : Text
  /-- What stands behind the anchor. -/
  behind : Text
  deriving DecidableEq, Repr

namespace Reading

/-- A selector with the anchor in it, as it is written. -/
def text (r : Reading) : Text := r.before ++ (anchor ++ r.behind)

/-- A selector whose combinators do not pierce the boundary of a component. -/
def flatten (r : Reading) : Reading := ⟨flattenCombinators r.before, flattenCombinators r.behind⟩

theorem flattenCombinators_text (r : Reading) : flattenCombinators r.text = r.flatten.text :=
  flattenCombinators_append_anchor r.before r.behind

theorem mem_flatten_text {r : Reading} {c : Char} (h : c ∈ r.flatten.text) :
    c ∈ r.before ++ r.behind ∨ c = ' ' ∨ c ∈ anchor := by
  simp only [text, flatten, List.mem_append] at h ⊢
  rcases h with h | h | h
  · exact (mem_flattenCombinators h).imp .inl .inl
  · exact .inr (.inr h)
  · exact (mem_flattenCombinators h).imp .inr .inl

end Reading

/-- A selector that names the host element once. -/
structure Named where
  /-- What stands before the name. -/
  before : Text
  /-- Whether the name is that of the host element or one of its ancestors. -/
  isContext : Bool
  /-- The name as it is written. -/
  word : Text
  /-- The selectors between the parentheses behind the name. -/
  arguments : Option (List Text)
  /-- What follows the name and its arguments. -/
  after : Text
  deriving DecidableEq, Repr

namespace Named

/-! ## Writing and reading -/

/-- The name in lower case. -/
def keyword (isContext : Bool) : Text :=
  if isContext then ":host-context".toList else ":host".toList

/-- The marker that stands for the name. -/
def marker (isContext : Bool) : Text := if isContext then contextMarker else Host.marker

/-- What follows the name. -/
def behindWord (a : Named) : Text :=
  match a.arguments with
  | none => a.after
  | some arguments => '(' :: ([','].intercalate arguments ++ ')' :: a.after)

/-- The selector as it is written. -/
def text (a : Named) : Text := a.before ++ (a.word ++ a.behindWord)

/-- The ways to read the selector from its name on, for one argument: the host element matches it,
or one of its ancestors does. -/
def expansion (a : Named) (s : Text) : List Reading :=
  ⟨[], trim s ++ a.after⟩ ::
    if a.isContext then [⟨' ' :: (trim s ++ [' ']), a.after⟩] else []

/-- The ways to read the selector from its name on. -/
def expansions (a : Named) : List Reading :=
  match a.arguments with
  | none => [⟨[], a.after⟩]
  | some arguments => arguments.flatMap a.expansion

/-- The ways to read the selector. -/
def readings (a : Named) : List Reading :=
  match a.expansions with
  | [] => []
  | r :: rs => ⟨a.before ++ r.before, r.behind⟩ :: rs

/-- The name is found where it stands, with its arguments, and nothing else is taken for a name. -/
@[mk_iff]
structure IsRead (a : Named) : Prop where
  word : after? .anyCase (keyword a.isContext) a.word = some []
  before : Lacks names a.before
  after : Lacks names a.after
  tail : ∀ c ∈ a.after, c ≠ ',' ∧ c ≠ '{'
  bare : a.arguments = none → a.after.head? ≠ some '('
  shorter : a.arguments = none → a.isContext = false →
    after? .anyCase "-context".toList a.after = none
  nonempty : a.arguments ≠ some []
  arguments : ∀ arguments ∈ a.arguments, ∀ s ∈ arguments,
    Lacks names s ∧ Lacks names (trim s ++ a.after) ∧ ∀ c ∈ s, c ≠ '(' ∧ c ≠ ')' ∧ c ≠ ','

instance (a : Named) : Decidable a.IsRead := decidable_of_iff' _ a.isRead_iff

/-- The name is found where it stands, and the parentheses behind it close behind its arguments,
which may hold parentheses, and parts of what stands in them. Where an argument and what follows
come next to each other, only the marker of `:host-context` is looked for again, behind `:host`. -/
structure IsFound (a : Named) : Prop where
  word : after? .anyCase (keyword a.isContext) a.word = some []
  before : Lacks names a.before
  after : Lacks names a.after
  tail : ∀ c ∈ a.after, c ≠ ',' ∧ c ≠ '{'
  bare : a.arguments = none → a.after.head? ≠ some '('
  shorter : a.arguments = none → a.isContext = false →
    after? .anyCase "-context".toList a.after = none
  nonempty : a.arguments ≠ some []
  closes : ∀ arguments ∈ a.arguments, ∀ t,
    argument? false ([','].intercalate arguments ++ ')' :: t) =
      some ([','].intercalate arguments, t)
  arguments : ∀ arguments ∈ a.arguments, ∀ s ∈ arguments, Lacks names s ∧ ',' ∉ s
  joint : a.isContext = false → ∀ arguments ∈ a.arguments, ∀ s ∈ arguments,
    ¬ includes .anyCase contextMarker (trim s ++ a.after)

theorem argument?_append {s : Text} (hs : ∀ c ∈ s, c ≠ '(' ∧ c ≠ ')') (t : Text) :
    argument? false (s ++ ')' :: t) = some (s, t) := by
  induction s with
  | nil => rfl
  | cons c s ih =>
    rw [List.forall_mem_cons] at hs
    rw [List.cons_append, argument?, ih hs.2]
    · rfl
    all_goals simp [hs.1.1, hs.1.2]

/-- Without parentheses in them the arguments end where the first one closes. -/
theorem IsRead.isFound {a : Named} (h : a.IsRead) : a.IsFound where
  word := h.word
  before := h.before
  after := h.after
  tail := h.tail
  bare := h.bare
  shorter := h.shorter
  nonempty := h.nonempty
  closes arguments harguments t := by
    refine argument?_append (fun d hd => ?_) t
    rcases mem_intercalate hd with hd | ⟨s, hs, hd⟩
    · rw [List.mem_singleton.mp hd]
      decide
    · obtain ⟨hopen, hclose, -⟩ := (h.arguments arguments harguments s hs).2.2 d hd
      exact ⟨hopen, hclose⟩
  arguments arguments harguments s hs := by
    obtain ⟨hs, -, hletters⟩ := h.arguments arguments harguments s hs
    exact ⟨hs, fun hcomma => (hletters ',' hcomma).2.2 rfl⟩
  joint _ arguments harguments s hs := by
    obtain ⟨-, hafter, -⟩ := h.arguments arguments harguments s hs
    exact (lacks_names_iff.mp hafter).2.2

/-! ## Marking -/

variable {a : Named}

theorem IsFound.lacks_behindWord (h : a.IsFound) : Lacks names a.behindWord := by
  have hopen : Divides names '(' := by decide
  have hclose : Divides names ')' := by decide
  have hcomma : Divides names ',' := by decide
  unfold behindWord
  split
  · exact h.after
  · rename_i arguments harguments
    refine (lacks_cons hopen _).mpr ((lacks_append_cons hclose _ _).mpr ⟨?_, h.after⟩)
    exact (lacks_intercalate hcomma _).mpr fun s hs => (h.arguments arguments harguments s hs).1

theorem IsFound.after?_behindWord (h : a.IsFound) (hcontext : a.isContext = false) :
    after? .anyCase "-context".toList a.behindWord = none := by
  unfold behindWord
  split
  · rename_i harguments
    exact h.shorter harguments hcontext
  · rfl

/-- A name begins with its only colon. -/
theorem IsFound.exists_word (h : a.IsFound) :
    ∃ d word, a.word = d :: word ∧ foldCase d = ':' ∧ ∀ c ∈ word, foldCase c ≠ ':' := by
  have hkeyword : ∃ w, keyword a.isContext = ':' :: w ∧ ∀ b ∈ w, foldCase b ≠ ':' := by
    cases a.isContext
    · exact ⟨"host".toList, rfl, by decide⟩
    · exact ⟨"host-context".toList, rfl, by decide⟩
  obtain ⟨w, hw, hne⟩ := hkeyword
  have hword := h.word
  rw [hw] at hword
  obtain ⟨d, word, hd, hagree, hword⟩ := exists_of_after?_cons hword
  refine ⟨d, word, hd, (eq_of_beq hagree).symm, fun c hc => ?_⟩
  obtain ⟨b, hb, hagree⟩ := exists_agree_of_after? hword c hc
  exact eq_of_beq hagree ▸ hne b hb

/-- No name begins before the name of the host and reaches into it. -/
theorem IsFound.bars_word (h : a.IsFound) {w : Text} (hw : ∀ b ∈ w.tail, foldCase b ≠ ':')
    (u : Text) : Bars .anyCase w (a.word ++ u) := by
  obtain ⟨d, word, hd, hcolon, -⟩ := h.exists_word
  rw [hd]
  refine bars_cons (fun b hb hagree => hw b hb ?_) _
  rw [← hcolon]
  exact eq_of_beq hagree

theorem IsFound.not_includes_hostContext (h : a.IsFound) (hcontext : a.isContext = false) :
    ¬ includes .anyCase ":host-context".toList a.text := by
  obtain ⟨hbefore, -, -⟩ := lacks_names_iff.mp h.before
  obtain ⟨hbehind, -, -⟩ := lacks_names_iff.mp h.lacks_behindWord
  have hword := h.word
  rw [hcontext] at hword
  -- the longer word would have to begin at the only colon of the name
  have hlonger : after? .anyCase ":host-context".toList (a.word ++ a.behindWord) = none := by
    rw [show ":host-context".toList = keyword false ++ "-context".toList from rfl,
      after?_append_literal, after?_append hword, Option.bind_some]
    exact h.after?_behindWord hcontext
  obtain ⟨d, word, hd, -, hrest⟩ := h.exists_word
  have hcolon : ∀ c ∈ word, ¬ Letters.anyCase.agree ':' c :=
    fun c hc hagree => hrest c hc (eq_of_beq hagree).symm
  rw [text, includes_append_of_bars (h.bars_word (by decide) _)]
  rw [hd, List.cons_append] at hlonger ⊢
  rw [includes_cons, hlonger, show ":host-context".toList = ':' :: "host-context".toList from rfl,
    includes_append_of_disagree hcolon, Option.isSome_none, Bool.false_or, Bool.or_eq_true, not_or]
  exact ⟨Host.not_includes_hostContext hbefore, Host.not_includes_hostContext hbehind⟩

/-- Only the name itself is marked. -/
theorem IsFound.mark_text (h : a.IsFound) :
    mark a.text = a.before ++ (marker a.isContext ++ a.behindWord) := by
  obtain ⟨hbefore, -, -⟩ := lacks_names_iff.mp h.before
  obtain ⟨hbehind, -, -⟩ := lacks_names_iff.mp h.lacks_behindWord
  have hfound : after? .anyCase (keyword a.isContext) (a.word ++ a.behindWord) =
      some a.behindWord := after?_append h.word a.behindWord
  rw [mark]
  cases hcontext : a.isContext with
  | true =>
    rw [hcontext] at hfound
    have hmarked := replace_append_of_after? (by decide) (Host.not_includes_hostContext hbefore)
      (h.bars_word (by decide) _) hfound (Host.not_includes_hostContext hbehind) contextMarker
    rw [text, hmarked, replace_append_of_clashes (by decide) (by decide),
      replace_of_not_includes hbefore, replace_of_not_includes hbehind]
    rfl
  | false =>
    rw [hcontext] at hfound
    rw [replace_of_not_includes (h.not_includes_hostContext hcontext)]
    exact replace_append_of_after? (by decide) hbefore (h.bars_word (by decide) _) hfound hbehind _

/-! ## Uses -/

/-- The use that is found in the marked selector. -/
def use (a : Named) : Use := ⟨a.arguments.map [','].intercalate, a.after⟩

theorem IsFound.splitArgument_behindWord (h : a.IsFound) {c : Char} (hc : ¬ inSelector c)
    (t : Text) : splitArgument (a.behindWord ++ c :: t) = (a.use.argument, a.after ++ c :: t) := by
  unfold behindWord use
  cases harguments : a.arguments with
  | none =>
    have hhead : ∀ u, a.after ++ c :: t ≠ '(' :: u := by
      intro u hu
      cases hafter : a.after with
      | nil =>
        rw [hafter] at hu
        obtain ⟨rfl, -⟩ := List.cons.inj hu
        exact hc (by decide)
      | cons d after =>
        rw [hafter] at hu
        obtain ⟨rfl, -⟩ := List.cons.inj hu
        exact h.bare harguments (by rw [hafter]; rfl)
    rw [splitArgument]
    · rfl
    · exact hhead
  | some arguments =>
    simp only [List.cons_append, List.append_assoc, splitArgument,
      h.closes arguments harguments (a.after ++ c :: t)]
    rfl

/-- Behind its marker a name is found with its arguments and the rest of the selector. -/
theorem IsFound.use?_append (h : a.IsFound) {c : Char} (hc : ¬ inSelector c) (w t : Text) :
    use? w (w ++ (a.behindWord ++ c :: t)) = some (a.use, c :: t) := by
  have htail : ∀ d ∈ a.after, inSelector d := by
    intro d hd
    simpa [inSelector] using h.tail d hd
  rw [use?, after?_append_self, Option.map_some, h.splitArgument_behindWord hc]
  simp only [List.takeWhile_append_of_pos htail, List.dropWhile_append_of_pos htail,
    List.takeWhile_cons_of_neg hc, List.dropWhile_cons_of_neg hc, List.append_nil]
  rfl

/-! ## Expanding -/

theorem dropMarker_of_lacks {s : Text} (hs : Lacks names s) : dropMarker s = s := by
  obtain ⟨-, hmarker, -⟩ := lacks_names_iff.mp hs
  rw [includes, Option.isSome_iff_ne_none, not_not] at hmarker
  rw [dropMarker, hmarker]

theorem expand_argument {s : Text} (hs : Lacks names (trim s)) :
    (if a.isContext then anchoredWithin else anchored) (trim s) a.after =
      [','].intercalate ((a.expansion s).map Reading.text) := by
  obtain ⟨-, hmarker, -⟩ := lacks_names_iff.mp hs
  cases hcontext : a.isContext with
  | true =>
    simp [anchoredWithin, hmarker, expansion, hcontext, Reading.text, List.intercalate]
  | false =>
    simp [anchored, dropMarker_of_lacks hs, expansion, hcontext, Reading.text, List.intercalate]

/-- In front of the first anchor stands what is before the name. -/
theorem IsFound.exists_expansions (h : a.IsFound) :
    ∃ behind rs, a.expansions = ⟨[], behind⟩ :: rs ∧ a.readings = ⟨a.before, behind⟩ :: rs := by
  obtain ⟨behind, rs, hrs⟩ : ∃ behind rs, a.expansions = ⟨[], behind⟩ :: rs := by
    unfold expansions
    split
    · exact ⟨a.after, [], rfl⟩
    · rename_i arguments harguments
      obtain ⟨s, arguments, rfl⟩ : ∃ s rest, arguments = s :: rest :=
        List.exists_cons_of_ne_nil fun hnil => h.nonempty (hnil ▸ harguments)
      simp [expansion]
  refine ⟨behind, rs, hrs, ?_⟩
  rw [readings, hrs]
  simp

theorem IsFound.expand_use (h : a.IsFound) :
    a.use.expand (if a.isContext then anchoredWithin else anchored) =
      [','].intercalate (a.expansions.map Reading.text) := by
  unfold Use.expand use expansions
  cases harguments : a.arguments with
  | none => simp [Reading.text]
  | some arguments =>
    have hcomma : ∀ s ∈ arguments, ',' ∉ s := fun s hs =>
      (h.arguments arguments harguments s hs).2
    have hne : arguments ≠ [] := fun hnil => h.nonempty (hnil ▸ harguments)
    have hpieces : ∀ s ∈ arguments, (a.expansion s).map Reading.text ≠ [] := by simp [expansion]
    simp only [Option.map_some, split_intercalate hne hcomma]
    rw [List.map_flatMap]
    refine Eq.trans ?_ (intercalate_flatMap [','] hpieces).symm
    refine congrArg _ (List.map_congr_left fun s hs => expand_argument ?_)
    exact (h.arguments arguments harguments s hs).1.of_isInfix (trim_isInfix s)

/-- What stands before a name stands before the first of its readings. -/
theorem IsFound.before_append_expand (h : a.IsFound) :
    a.before ++ a.use.expand (if a.isContext then anchoredWithin else anchored) =
      [','].intercalate (a.readings.map Reading.text) := by
  obtain ⟨behind, rs, hexpansions, hreadings⟩ := h.exists_expansions
  rw [h.expand_use, hexpansions, hreadings, List.map_cons, append_intercalate_cons]
  simp [Reading.text]

/-! ## All passes -/

/-- The pass that waits for the marker of a name finds the name. -/
theorem IsFound.substitute_use (h : a.IsFound) {R : Reader Use} {w : Text}
    (hread : ∀ t, R.read t = use? w t) (hrepels : Repels .anyCase w w)
    (hbefore : ¬ includes .anyCase w a.before) {c : Char} (hc : ¬ inSelector c) (hw : w ≠ [])
    (hdivides : ∀ b ∈ w, ¬ Letters.anyCase.agree b c) (write : Use → Text) (t : Text) :
    R.substitute write (a.before ++ (w ++ a.behindWord) ++ c :: t) =
      a.before ++ write a.use ++ c :: R.substitute write t := by
  have hawaits : R.AwaitsLiteral .anyCase w := by
    intro u hu
    rw [hread, use?, hu, Option.map_none]
  have hfound : R.read (w ++ (a.behindWord ++ c :: t)) = some (a.use, c :: t) :=
    (hread _).trans (h.use?_append hc w t)
  rw [List.append_assoc, List.append_assoc,
    (hawaits.passes hbefore (hrepels.bars _)).substitute_append,
    Reader.substitute_of_read hfound,
    Reader.substitute_cons_of_none (hawaits _ (after?_cons_of_disagree hw hdivides t)),
    List.append_assoc]

/-- What can stand on the two sides of an anchor. -/
theorem IsFound.sides_of_mem_readings (h : a.IsFound) {r : Reading} (hr : r ∈ a.readings) :
    (r.before = a.before ∨ r.before = [] ∨ ∃ arguments, a.arguments = some arguments ∧
      ∃ s ∈ arguments, r.before = ' ' :: (trim s ++ [' '])) ∧
    (r.behind = a.after ∨ ∃ arguments, a.arguments = some arguments ∧
      ∃ s ∈ arguments, r.behind = trim s ++ a.after) := by
  have hexpansions : ∀ r ∈ a.expansions,
      (r.before = [] ∨ ∃ arguments, a.arguments = some arguments ∧
        ∃ s ∈ arguments, r.before = ' ' :: (trim s ++ [' '])) ∧
      (r.behind = a.after ∨ ∃ arguments, a.arguments = some arguments ∧
        ∃ s ∈ arguments, r.behind = trim s ++ a.after) := by
    intro r hr
    unfold expansions at hr
    split at hr
    · rw [List.mem_singleton.mp hr]
      exact ⟨.inl rfl, .inl rfl⟩
    · rename_i arguments harguments
      obtain ⟨s, hs, hr⟩ := List.mem_flatMap.mp hr
      rw [expansion, List.mem_cons] at hr
      rcases hr with rfl | hr
      · exact ⟨.inl rfl, .inr ⟨arguments, harguments, s, hs, rfl⟩⟩
      · split at hr
        · rw [List.mem_singleton.mp hr]
          exact ⟨.inr ⟨arguments, harguments, s, hs, rfl⟩, .inl rfl⟩
        · exact absurd hr List.not_mem_nil
  obtain ⟨behind, rs, hrs, hreadings⟩ := h.exists_expansions
  rw [hrs, List.forall_mem_cons] at hexpansions
  rw [hreadings, List.mem_cons] at hr
  rcases hr with rfl | hr
  · exact ⟨.inl rfl, hexpansions.1.2⟩
  · exact (hexpansions.2 r hr).imp_left .inr

/-- A reading consists of what was written on both sides of the name, and of spaces. -/
theorem IsFound.mem_reading (h : a.IsFound) {r : Reading} (hr : r ∈ a.readings) {c : Char}
    (hc : c ∈ r.before ++ r.behind) : c ∈ a.before ∨ c ∈ a.behindWord ∨ c = ' ' := by
  have hargument : ∀ {arguments s}, a.arguments = some arguments → s ∈ arguments → c ∈ trim s →
      c ∈ a.behindWord := by
    intro arguments s harguments hs hmem
    have hjoined := (infix_intercalate [','] hs).subset ((trim_isInfix s).subset hmem)
    rw [behindWord, harguments]
    exact List.mem_cons_of_mem _ (List.mem_append_left _ hjoined)
  have hafter : c ∈ a.after → c ∈ a.behindWord := by
    intro hmem
    unfold behindWord
    split
    · exact hmem
    · exact List.mem_cons_of_mem _ (List.mem_append_right _ (List.mem_cons_of_mem _ hmem))
  obtain ⟨hbefore, hbehind⟩ := h.sides_of_mem_readings hr
  rcases List.mem_append.mp hc with hc | hc
  · rcases hbefore with heq | heq | ⟨arguments, harguments, s, hs, heq⟩ <;> rw [heq] at hc
    · exact .inl hc
    · exact absurd hc List.not_mem_nil
    · simp only [List.mem_cons, List.mem_append, List.not_mem_nil, or_false] at hc
      rcases hc with hc | hc | hc
      · exact .inr (.inr hc)
      · exact .inr (.inl (hargument harguments hs hc))
      · exact .inr (.inr hc)
  · rcases hbehind with heq | ⟨arguments, harguments, s, hs, heq⟩ <;> rw [heq] at hc
    · exact .inr (.inl (hafter hc))
    · rcases List.mem_append.mp hc with hc | hc
      · exact .inr (.inl (hargument harguments hs hc))
      · exact .inr (.inl (hafter hc))

/-- Behind `:host` nothing is left for the second pass. -/
theorem IsFound.lacks_readings (h : a.IsFound) (hcontext : a.isContext = false) :
    ∀ r ∈ a.readings, Lacks [(.anyCase, contextMarker)] r.before ∧
      Lacks [(.anyCase, contextMarker)] r.behind := by
  have hfew : [(.anyCase, contextMarker)] ⊆ names := by decide
  have hblank : Divides [(.anyCase, contextMarker)] ' ' := by decide
  intro r hr
  obtain ⟨hbefore, hbehind⟩ := h.sides_of_mem_readings hr
  constructor
  · rcases hbefore with heq | heq | ⟨arguments, harguments, s, hs, heq⟩ <;> rw [heq]
    · exact h.before.of_subset hfew
    · exact hblank.lacks_nil
    · have hlacks := (h.arguments arguments harguments s hs).1.of_isInfix (trim_isInfix s)
      exact (lacks_cons hblank _).mpr
        ((lacks_append_cons hblank _ _).mpr ⟨hlacks.of_subset hfew, hblank.lacks_nil⟩)
  · rcases hbehind with heq | ⟨arguments, harguments, s, hs, heq⟩ <;> rw [heq]
    · exact h.after.of_subset hfew
    · exact lacks_singleton.mpr (h.joint hcontext arguments harguments s hs)

/-- A selector that names the host once is normalized to the list of its readings. -/
theorem IsFound.normalize_append (h : a.IsFound) {c : Char} (hc : ¬ inSelector c) (t : Text) :
    normalize (a.text ++ c :: t) =
      [','].intercalate (a.readings.map (·.flatten.text)) ++ c :: normalize t := by
  have hdivides := divides_of_not_inSelector hc
  obtain ⟨-, hmarker, hcontext⟩ := lacks_names_iff.mp h.before
  obtain ⟨-, hmarker', -⟩ := lacks_names_iff.mp h.lacks_behindWord
  have hm := hdivides (.anyCase, Host.marker) (by decide)
  have hcm := hdivides (.anyCase, contextMarker) (by decide)
  have hpasses : ∀ u, contextReader.substitute (Use.expand anchoredWithin)
      (hostReader.substitute (Use.expand anchored)
        (a.before ++ (marker a.isContext ++ a.behindWord) ++ c :: u)) =
      [','].intercalate (a.readings.map Reading.text) ++
        c :: contextReader.substitute (Use.expand anchoredWithin)
          (hostReader.substitute (Use.expand anchored) u) := by
    intro u
    rw [← h.before_append_expand]
    -- each of the two passes finds the marker it waits for and goes over the other one
    cases hkind : a.isContext with
    | true =>
      have hlacks :
          ¬ includes .anyCase Host.marker (a.before ++ (contextMarker ++ a.behindWord)) := by
        have hrepels : Repels .anyCase Host.marker contextMarker := by decide
        rw [includes_append_of_bars (hrepels.bars _), includes_append_of_shuts (by decide),
          Bool.or_eq_true, not_or]
        exact ⟨hmarker, hmarker'⟩
      rw [marker, if_pos rfl, if_pos rfl,
        Reader.substitute_append_cons awaitsLiteral_hostReader hlacks hm.1 hm.2,
        h.substitute_use (fun _ => rfl) (by decide) hcontext hc hcm.1 hcm.2]
    | false =>
      have hlacks : ¬ includes .anyCase contextMarker (a.before ++ a.use.expand anchored) := by
        have hexpand := h.before_append_expand
        rw [hkind, if_neg Bool.false_ne_true] at hexpand
        rw [hexpand]
        refine lacks_singleton.mp ((lacks_intercalate (by decide) _).mpr
          (List.forall_mem_map.mpr fun r hr => ?_))
        exact (lacks_append_of_clashes (by decide) _ _).mpr (h.lacks_readings hkind r hr)
      rw [marker, if_neg Bool.false_ne_true, if_neg Bool.false_ne_true,
        h.substitute_use (fun _ => rfl) (by decide) hmarker hc hm.1 hm.2,
        Reader.substitute_append_cons awaitsLiteral_contextReader hlacks hcm.1 hcm.2]
  rw [normalize, mark_append_cons hdivides, h.mark_text, hpasses,
    flattenCombinators_append_cons (fun w hw => hdivides w (List.mem_append_right _ hw)),
    flattenCombinators_intercalate, List.map_map, normalize]
  congr 3
  funext r
  exact r.flattenCombinators_text

end Named

end ScopedStyles.Host
