import ScopedStyles.Comment

/-!
# Polyfill directives

Three directives let a stylesheet say what a browser without native scoping should see:

* `polyfill-next-selector {content: 's'} t {` puts the selector `s` in place of the next one, `t`;
* `polyfill-rule {content: 's'; d}` is the rule `s {; d}`;
* `polyfill-unscoped-rule {content: 's'; d}` is the same rule, kept out of the scoping.

A directive that is not written in this form is ordinary text. Where its block has several `content`
declarations the last one that completes the form counts.
-/

namespace ScopedStyles

open Text

/-- The polyfill directives. -/
inductive Directive where
  /-- Replaces the selector of the rule that follows. -/
  | nextSelector
  /-- Stands for a rule. -/
  | rule
  /-- Stands for a rule that is not scoped. -/
  | unscopedRule
  deriving DecidableEq, Repr

namespace Directive

/-- The word that begins a directive, in any case. -/
def keyword : Directive → Text
  | nextSelector => "polyfill-next-selector".toList
  | rule => "polyfill-rule".toList
  | unscopedRule => "polyfill-unscoped-rule".toList

theorem keyword_ne_nil (d : Directive) : d.keyword ≠ [] := by
  cases d <;> decide

/-! ## Content declarations -/

/-- The value between quotes at the head of a text, with the text behind it. The value may hold
the other kind of quote. -/
def quoted? : Text → Option (Text × Text)
  | '\'' :: t => cut .exact ['\''] t
  | '"' :: t => cut .exact ['"'] t
  | _ => none

/-- A `content` declaration. -/
structure Content where
  /-- The declaration as it is written. -/
  declaration : Text
  /-- The value between the quotes. -/
  value : Text
  /-- The text behind the declaration. -/
  rest : Text
  deriving DecidableEq, Repr

/-- The `content` declaration at the head of a text. -/
def content? (t : Text) : Option Content := do
  let inner ← after? .anyCase "content:".toList t
  let (value, rest) ← quoted? (trimStart inner)
  return { declaration := t.take (t.length - rest.length), value, rest }

/-- The last place before the first closing brace where `read` succeeds, by the text before it, with
what is read there. -/
def lastInBlock {α : Type} (read : Text → Option α) : Text → Option (Text × α)
  | [] => none
  | c :: t =>
    if c = '}' then none
    else
      match lastInBlock read t with
      | some (before, a) => some (c :: before, a)
      | none => (read (c :: t)).map ([], ·)

/-! ## Reading directives -/

/-- The end of a `polyfill-next-selector` block whose content declaration was just read, and the
selector it replaces: the text behind the next opening brace. -/
def afterNextSelector? (t : Text) : Option Text := do
  let t ← after? .exact ['}'] (t.dropWhile fun c => c == ';' || isBlank c)
  let (_, rest) ← cut .exact ['{'] t
  return rest

/-- The rule that a directive with this block stands for: the selector, and the block without the
first copy of its content declaration. -/
def ruleText (c : Content) (block : Text) : Text :=
  c.value ++ removeFirst .exact c.declaration block

/-- What stands for the directive at the head of a text, with the text behind it. -/
def read (d : Directive) (t : Text) : Option (Text × Text) := do
  let block ← after? .anyCase d.keyword t
  match d with
  | nextSelector =>
    let (_, value, rest) ← lastInBlock (fun t => do
      let c ← content? t
      let rest ← afterNextSelector? c.rest
      return (c.value, rest)) block
    return (value ++ ['{'], rest)
  | _ =>
    let (before, c, inner, rest) ← lastInBlock (fun t => do
      let c ← content? t
      let (inner, rest) ← cut .exact ['}'] c.rest
      return (c, inner, rest)) block
    return (ruleText c (before ++ c.declaration ++ inner ++ ['}']), rest)

theorem lastInBlock_eq_some {α : Type} {read : Text → Option α} {t before : Text} {a : α}
    (h : lastInBlock read t = some (before, a)) : ∃ s, t = before ++ s ∧ read s = some a := by
  induction t generalizing before with
  | nil => simp [lastInBlock] at h
  | cons c t ih =>
    simp only [lastInBlock] at h
    split at h
    · simp at h
    · split at h
      · rename_i b a' hb
        simp only [Option.some.injEq, Prod.mk.injEq] at h
        obtain ⟨rfl, rfl⟩ := h
        obtain ⟨s, rfl, hs⟩ := ih hb
        exact ⟨s, rfl, hs⟩
      · simp only [Option.map_eq_some_iff, Prod.mk.injEq] at h
        obtain ⟨a', ha, rfl, rfl⟩ := h
        exact ⟨c :: t, rfl, ha⟩

theorem length_quoted? {t value rest : Text} (h : quoted? t = some (value, rest)) :
    rest.length < t.length := by
  unfold quoted? at h
  split at h
  · have := length_cut h
    simp only [List.length_cons]
    omega
  · have := length_cut h
    simp only [List.length_cons]
    omega
  · simp at h

theorem length_content? {t : Text} {c : Content} (h : content? t = some c) :
    c.rest.length < t.length := by
  simp only [content?, Option.bind_eq_bind, Option.bind_eq_some_iff, Prod.exists, Option.pure_def,
    Option.some.injEq] at h
  obtain ⟨inner, hinner, value, rest, hquoted, rfl⟩ := h
  have := length_after? hinner
  have := length_quoted? hquoted
  have := length_trimStart_le inner
  simp only
  omega

theorem length_afterNextSelector? {t rest : Text} (h : afterNextSelector? t = some rest) :
    rest.length < t.length := by
  simp only [afterNextSelector?, Option.bind_eq_bind, Option.bind_eq_some_iff, Prod.exists,
    Option.pure_def, Option.some.injEq] at h
  obtain ⟨u, hu, before, rest', hcut, rfl⟩ := h
  have := length_after? hu
  have := length_cut hcut
  have := (List.dropWhile_suffix (l := t) (fun c => c == ';' || isBlank c)).length_le
  simp only [List.length_cons, List.length_nil] at *
  omega

theorem length_read {d : Directive} {t new rest : Text} (h : d.read t = some (new, rest)) :
    rest.length < t.length := by
  simp only [read, Option.bind_eq_bind, Option.bind_eq_some_iff] at h
  obtain ⟨block, hblock, h⟩ := h
  have hblock := length_after? hblock
  have hkeyword := List.length_pos_iff.mpr d.keyword_ne_nil
  split at h
  · simp only [Option.bind_eq_some_iff, Prod.exists, Option.pure_def, Option.some.injEq,
      Prod.mk.injEq] at h
    obtain ⟨before, value, r, hlast, rfl, rfl⟩ := h
    obtain ⟨s, hs, hread⟩ := lastInBlock_eq_some hlast
    simp only [Option.bind_eq_some_iff, Option.some.injEq, Prod.mk.injEq] at hread
    obtain ⟨c, hc, r', hr', rfl, rfl⟩ := hread
    have := length_content? hc
    have := length_afterNextSelector? hr'
    have := congrArg List.length hs
    simp only [List.length_append] at this
    omega
  · simp only [Option.bind_eq_some_iff, Prod.exists, Option.pure_def, Option.some.injEq,
      Prod.mk.injEq] at h
    obtain ⟨before, c, inner, r, hlast, rfl, rfl⟩ := h
    obtain ⟨s, hs, hread⟩ := lastInBlock_eq_some hlast
    simp only [Option.bind_eq_some_iff, Prod.exists, Option.some.injEq, Prod.mk.injEq] at hread
    obtain ⟨c', hc, inner', r', hcut, rfl, rfl, rfl⟩ := hread
    have := length_content? hc
    have := length_cut hcut
    have := congrArg List.length hs
    simp only [List.length_append] at this
    omega

/-- Finds the directives of one kind, each by the text it stands for. -/
def reader (d : Directive) : Reader Text where
  read := d.read
  shorter := length_read

/-! ## Expanding directives -/

/-- A stylesheet with its scoped directives expanded. -/
def insert (css : Text) : Text := rule.reader.substitute id (nextSelector.reader.substitute id css)

/-- A stylesheet without comments and with its scoped directives expanded. -/
def expand (css : Text) : Text := insert (Comment.strip css)

/-- A stylesheet without its unscoped rules, and those rules, a blank line behind each. -/
def extractUnscoped (css : Text) : Text × Text :=
  (unscopedRule.reader.substitute (fun _ => []) css,
    (unscopedRule.reader.found css).flatMap (· ++ ['\n', '\n']))

end Directive

end ScopedStyles
