import ScopedStyles.Proofs.Sheet.Walk
import ScopedStyles.Proofs.Text.Trim
import ScopedStyles.Proofs.Text.Words

/-!
# Flattened texts

What flattening makes of any text, whatever its preludes are, block by block from left to right
(`Block.block_induction`), and what the rules are found in afterwards, run by run
(`Rule.run_induction`). Here blocks may have no prelude, and their contents then go to other rules.
-/

namespace ScopedStyles

open Text

theorem cons_suffix_append {c : Char} {x y t : Text} (hx : c ∉ x) (h : c :: t <:+ x ++ y) :
    c :: t <:+ y := by
  obtain ⟨p, hp⟩ := h
  obtain ⟨s, rfl, hs⟩ | ⟨s, -, rfl⟩ := List.append_eq_append_iff.mp hp
  · cases s with
    | nil => exact hs ▸ List.suffix_refl _
    | cons d s =>
      obtain ⟨rfl, -⟩ := List.cons.inj hs
      exact absurd (List.mem_append_right p List.mem_cons_self) hx
  · exact List.suffix_append s _

namespace Block

/-! ## Blocks from left to right -/

theorem body_of_staysOpen {b : Text} (hb : StaysOpen 0 b) : body 0 b = (b, []) := by
  have h := body_append_of_staysOpen hb []
  rw [List.append_nil] at h
  rw [h]
  simp [body]

/-- What holds of texts without blocks, of those that end with an open block, and of a block with
more behind it if it holds of that, holds of every text. -/
theorem block_induction {P : Text → Prop} (plain : ∀ p, '{' ∉ p → P p)
    (unclosed : ∀ p b, '{' ∉ p → StaysOpen 0 b → P (p ++ '{' :: b))
    (closed : ∀ p b rest, '{' ∉ p → Balanced b → P rest → P (p ++ '{' :: (b ++ '}' :: rest)))
    (t : Text) : P t := by
  induction hlen : t.length using Nat.strong_induction_on generalizing t with
  | _ n ih =>
    by_cases hopen : '{' ∈ t
    · obtain ⟨p, u, rfl, hp⟩ := List.eq_append_cons_of_mem hopen
      have hbody := body_append 0 u
      -- the block goes on to the end of the text, or a brace closes it
      obtain ⟨hstay, hmissing | ⟨⟨rest, hrest⟩, hcount⟩⟩ := staysOpen_body 0 u
      · rw [hmissing, List.append_nil] at hbody
        exact unclosed p u hp (hbody ▸ hstay)
      · have hbalanced : Balanced (body 0 u).1 := ⟨hstay, by rw [hcount, Nat.zero_add]⟩
        have hu : u = (body 0 u).1 ++ '}' :: rest := by rw [← hrest, hbody]
        rw [hu]
        refine closed p _ rest hp hbalanced (ih rest.length ?_ rest rfl)
        have hshort := congrArg List.length hu
        simp only [List.length_append, List.length_cons] at hlen hshort
        omega
    · exact plain t hopen

theorem flatten_plain {p : Text} (hp : '{' ∉ p) : flatten p = ⟨p, []⟩ := by
  have h := flatten_append (fun c hc (heq : c = '{') => hp (heq ▸ hc)) []
  rwa [List.append_nil, flatten_nil, List.append_nil] at h

theorem flatten_unclosed {p b : Text} (hp : '{' ∉ p) (hb : StaysOpen 0 b) :
    flatten (p ++ '{' :: b) = ⟨p ++ '{' :: placeholder, [b]⟩ := by
  rw [flatten_append (fun c hc (heq : c = '{') => hp (heq ▸ hc)), flatten_open,
    body_of_staysOpen hb, flatten_nil, List.append_nil]

theorem flatten_closed {p b : Text} (hp : '{' ∉ p) (hb : Balanced b) (rest : Text) :
    flatten (p ++ '{' :: (b ++ '}' :: rest)) =
      ⟨p ++ '{' :: (placeholder ++ '}' :: (flatten rest).skeleton),
        b :: (flatten rest).blocks⟩ := by
  rw [flatten_append (fun c hc (heq : c = '{') => hp (heq ▸ hc)), flatten_open,
    hb.body_append_close, flatten_cons (by decide)]

/-- A block stands in the text. -/
theorem infix_of_mem_blocks {t b : Text} (h : b ∈ (flatten t).blocks) : b <:+: t := by
  induction t using block_induction with
  | plain p hp =>
    rw [flatten_plain hp] at h
    exact absurd h List.not_mem_nil
  | unclosed p b' hp hb =>
    rw [flatten_unclosed hp hb] at h
    obtain rfl := List.mem_singleton.mp h
    exact ((List.suffix_cons '{' b).trans (List.suffix_append p _)).isInfix
  | closed p b' rest hp hb ih =>
    rw [flatten_closed hp hb] at h
    rcases List.mem_cons.mp h with rfl | h
    · exact ⟨p ++ ['{'], '}' :: rest, by simp⟩
    · have hrest : rest <:+ p ++ '{' :: (b' ++ '}' :: rest) :=
        ⟨p ++ '{' :: (b' ++ ['}']), by simp⟩
      exact (ih h).trans hrest.isInfix

/-- Words that have no braces do not come into a text when it is flattened. -/
theorem lacks_skeleton {words : List (Letters × Text)} (hopen : Divides words '{')
    (hclose : Divides words '}') (hplaceholder : Lacks words placeholder) {t : Text}
    (h : Lacks words t) : Lacks words (flatten t).skeleton := by
  induction t using block_induction with
  | plain p hp => rwa [flatten_plain hp]
  | unclosed p b hp hb =>
    rw [flatten_unclosed hp hb]
    obtain ⟨hbefore, -⟩ := (lacks_append_cons hopen p b).mp h
    exact (lacks_append_cons hopen _ _).mpr ⟨hbefore, hplaceholder⟩
  | closed p b rest hp hb ih =>
    rw [flatten_closed hp hb]
    obtain ⟨hbefore, hbehind⟩ := (lacks_append_cons hopen _ _).mp h
    obtain ⟨-, hrest⟩ := (lacks_append_cons hclose _ _).mp hbehind
    exact (lacks_append_cons hopen _ _).mpr
      ⟨hbefore, (lacks_append_cons hclose _ _).mpr ⟨hplaceholder, ih hrest⟩⟩

/-- Each opening brace of a text has a placeholder behind it, and then comes a closing one, or the
text ends. -/
def IsSkeleton (s : Text) : Prop :=
  ∀ t, '{' :: t <:+ s → ∃ u, t = placeholder ++ u ∧ ∀ c ∈ u.head?, c = '}'

theorem IsSkeleton.of_suffix {s t : Text} (h : IsSkeleton s) (ht : t <:+ s) : IsSkeleton t :=
  fun u hu => h u (hu.trans ht)

theorem isSkeleton_flatten (t : Text) : IsSkeleton (flatten t).skeleton := by
  have hplaceholder : '{' ∉ placeholder := by decide
  induction t using block_induction with
  | plain p hp =>
    rw [flatten_plain hp]
    exact fun t ht => absurd (ht.subset List.mem_cons_self) hp
  | unclosed p b hp hb =>
    rw [flatten_unclosed hp hb]
    intro t ht
    rcases List.suffix_cons_iff.mp (cons_suffix_append hp ht) with heq | ht
    · obtain ⟨-, rfl⟩ := List.cons.inj heq
      exact ⟨[], (List.append_nil _).symm, by simp⟩
    · exact absurd (ht.subset List.mem_cons_self) hplaceholder
  | closed p b rest hp hb ih =>
    rw [flatten_closed hp hb]
    intro t ht
    rcases List.suffix_cons_iff.mp (cons_suffix_append hp ht) with heq | ht
    · obtain ⟨-, rfl⟩ := List.cons.inj heq
      exact ⟨_, rfl, by simp⟩
    · rcases List.suffix_cons_iff.mp (cons_suffix_append hplaceholder ht) with heq | ht
      · exact absurd (List.cons.inj heq).1 (by decide)
      · exact ih t ht

end Block

/-! ## Runs from left to right -/

namespace Rule

theorem exists_run (t : Text) :
    IsRun t ∨ ∃ run c rest, t = run ++ c :: rest ∧ IsRun run ∧ ¬ inPrelude c := by
  have hsplit : t.takeWhile inPrelude ++ t.dropWhile inPrelude = t :=
    List.takeWhile_append_dropWhile
  cases hdrop : t.dropWhile inPrelude with
  | nil =>
    rw [hdrop, List.append_nil] at hsplit
    exact .inl (hsplit ▸ isRun_takeWhile t)
  | cons c rest =>
    have hhead := List.head?_dropWhile_not inPrelude t
    rw [hdrop] at hsplit hhead
    exact .inr ⟨_, c, rest, hsplit.symm, isRun_takeWhile t, by simpa using hhead⟩

/-- What holds of runs, and of a run with more behind it if it holds of all ends of that, holds of
every text. -/
theorem run_induction {P : Text → Prop} (run : ∀ p, IsRun p → P p)
    (append : ∀ p c rest, IsRun p → ¬ inPrelude c → (∀ t, t <:+ rest → P t) →
      P (p ++ c :: rest)) (t : Text) : P t := by
  induction hlen : t.length using Nat.strong_induction_on generalizing t with
  | _ n ih =>
    obtain hrun | ⟨p, c, rest, rfl, hp, hc⟩ := exists_run t
    · exact run t hrun
    · refine append p c rest hp hc fun t ht => ih t.length ?_ t rfl
      have := ht.length_le
      simp only [List.length_append, List.length_cons] at hlen
      omega

theorem splitEnd_suffix (t : Text) : (splitEnd t).2 <:+ t := ⟨_, splitEnd_append t⟩

/-- What follows the placeholder at the head of a text is an end of it. -/
theorem suffix_of_after?_placeholder {c : Char} {rest tail : Text}
    (h : after? .exact ('{' :: Block.placeholder) (c :: rest) = some tail) : tail <:+ rest := by
  obtain ⟨-, rfl⟩ := List.cons.inj (after?_exact.mp h)
  exact List.suffix_append _ _

theorem splitRun_isInfix (p : Text) : (splitRun p).2.1 <:+: p := by
  unfold splitRun
  split
  · cases hlast : p.getLast? with
    | none => exact List.nil_infix
    | some c =>
      obtain ⟨q, rfl⟩ := List.getLast?_eq_some_iff.mp hlast
      exact (List.suffix_append q [c]).isInfix
  · exact trim_isInfix p

/-- The selector of a run stands between blanks. -/
theorem isBlank_of_splitRun (p : Text) :
    (∀ c ∈ (splitRun p).1, isBlank c) ∧ ∀ c ∈ (splitRun p).2.2, isBlank c := by
  unfold splitRun
  split
  · rename_i hnil
    have hblanks := List.dropWhile_eq_nil_iff.mp hnil
    exact ⟨fun c hc => hblanks c (List.mem_of_mem_dropLast hc), by simp⟩
  · exact ⟨fun c hc => List.mem_takeWhile_imp hc, fun c hc => isBlank_of_mem_blanksAtEnd hc⟩

/-- Behind the brace of a rule stand blanks, and a semicolon. -/
theorem mem_splitSemicolon {c : Char} {t : Text} (h : c ∈ (splitSemicolon t).1) :
    isBlank c ∨ c = ';' := by
  unfold splitSemicolon at h
  split at h
  · rcases List.mem_append.mp h with h | h
    · exact .inl (List.mem_takeWhile_imp h)
    · exact .inr (List.mem_singleton.mp h)
  · exact .inl (List.mem_takeWhile_imp h)

theorem splitEnd_nil : splitEnd [] = ([], []) := rfl

theorem splitEnd_close (t : Text) :
    splitEnd ('}' :: t) = ('}' :: (splitSemicolon t).1, (splitSemicolon t).2) := rfl

theorem fill_block (slot : Slot) (selector : Text) (ps : List Part) (blocks : List Text) :
    fill (.block slot selector :: ps) blocks =
      .rule slot ⟨selector, blocks.headD []⟩ :: fill ps blocks.tail := by
  cases blocks <;> rfl

/-- What holds of runs, and of a text with a first part if it holds of the text behind that part,
holds of every text and its parts. -/
theorem parts_induction {P : Text → List Part → Prop} (run : ∀ p, IsRun p → P p (parts p))
    (copied : ∀ p c rest, IsRun p → ¬ inPrelude c → P rest (parts rest) →
      P (p ++ c :: rest) (.copied (p ++ [c]) :: parts rest))
    (statement : ∀ p rest, IsRun p → P rest (parts rest) → P (p ++ ';' :: rest)
      (.statement ⟨(splitRun p).1, (splitRun p).2.2, [';']⟩ (splitRun p).2.1 :: parts rest))
    (block : ∀ p tail, IsRun p → P (splitEnd tail).2 (parts (splitEnd tail).2) →
      P (p ++ '{' :: (Block.placeholder ++ tail))
        (.block ⟨(splitRun p).1, (splitRun p).2.2 ++ ['{'], (splitEnd tail).1⟩ (splitRun p).2.1 ::
          parts (splitEnd tail).2))
    (t : Text) : P t (parts t) := by
  induction t using run_induction with
  | run p hp => exact run p hp
  | append p c rest hp hc ih =>
    have hrest := ih rest (List.suffix_refl rest)
    rw [parts_append hp hc]
    -- nothing is the prelude of a rule, nor is a run with no placeholder behind it
    split
    · rename_i hnil
      subst hnil
      exact copied [] c rest hp hc hrest
    · split
      · rename_i hsemicolon
        subst hsemicolon
        exact statement p rest hp hrest
      · split
        · exact copied p c rest hp hc hrest
        · rename_i tail hafter
          have hsuffix := (splitEnd_suffix tail).trans (suffix_of_after?_placeholder hafter)
          rw [after?_exact.mp hafter]
          exact block p tail hp (ih _ hsuffix)

/-- The selector of a rule stands in the text. -/
theorem selector_isInfix_of_mem_fill {t : Text} {blocks : List Text} {slot : Slot} {r : Rule}
    (h : .rule slot r ∈ fill (parts t) blocks) : r.selector <:+: t := by
  revert blocks
  induction t using parts_induction with
  | run p hp =>
    intro blocks h
    rw [parts_run hp] at h
    split at h
    · exact absurd h List.not_mem_nil
    · exact absurd h (by simp [fill])
  | copied p c rest hp hc ih =>
    intro blocks h
    have h : .rule slot r ∈ fill (parts rest) blocks := by simpa [fill] using h
    exact (ih h).trans ((List.suffix_cons c rest).trans (List.suffix_append p _)).isInfix
  | statement p rest hp ih =>
    intro blocks h
    rcases List.mem_cons.mp h with heq | h
    · cases heq
      exact (splitRun_isInfix p).trans (List.prefix_append p _).isInfix
    · exact (ih h).trans ((List.suffix_cons ';' rest).trans (List.suffix_append p _)).isInfix
  | block p tail hp ih =>
    intro blocks h
    rw [fill_block] at h
    rcases List.mem_cons.mp h with heq | h
    · cases heq
      exact (splitRun_isInfix p).trans (List.prefix_append p _).isInfix
    · have htail : tail <:+ p ++ '{' :: (Block.placeholder ++ tail) :=
        ⟨p ++ '{' :: Block.placeholder, by simp⟩
      exact (ih h).trans ((splitEnd_suffix tail).trans htail).isInfix

/-- The parts of a text, with the blocks put back and the rules changed by `f`. -/
def writeParts (f : Rule → Rule) (ps : List Part) (blocks : List Text) : Text :=
  (fill ps blocks).flatMap (Item.write f)

theorem writeParts_copied (f : Rule → Rule) (text : Text) (ps : List Part) (blocks : List Text) :
    writeParts f (.copied text :: ps) blocks = text ++ writeParts f ps blocks := rfl

theorem writeParts_statement (f : Rule → Rule) (slot : Slot) (selector : Text) (ps : List Part)
    (blocks : List Text) : writeParts f (.statement slot selector :: ps) blocks =
      slot.write (f ⟨selector, []⟩) ++ writeParts f ps blocks := rfl

theorem writeParts_block (f : Rule → Rule) (slot : Slot) (selector : Text) (ps : List Part)
    (blocks : List Text) : writeParts f (.block slot selector :: ps) blocks =
      slot.write (f ⟨selector, blocks.headD []⟩) ++ writeParts f ps blocks.tail := by
  rw [writeParts, fill_block]
  rfl

theorem map_eq_writeParts (f : Rule → Rule) (t : Text) :
    map f t = writeParts f (parts (Block.flatten t).skeleton) (Block.flatten t).blocks := rfl

theorem writeParts_run (f : Rule → Rule) {p : Text} (hp : IsRun p) (blocks : List Text) :
    writeParts f (parts p) blocks = p := by
  rw [writeParts, parts_run hp]
  by_cases hnil : p = []
  · simp [hnil, fill]
  · simp [hnil, fill, Item.write]

@[simp] theorem writeParts_nil (f : Rule → Rule) (blocks : List Text) :
    writeParts f (parts []) blocks = [] := writeParts_run f (by simp [IsRun]) blocks

end Rule

end ScopedStyles
