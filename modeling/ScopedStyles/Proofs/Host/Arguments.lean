import Mathlib.Tactic.Ring
import ScopedStyles.Proofs.Host.Named

/-!
# Alternatives with parentheses

The parentheses behind a name of the host close where they should when an alternative between them
has parentheses of its own (`Host.argument?_alternatives`). But what stands between them is split at
every comma, also at those within such parentheses. So there is one alternative for each that was
written exactly if no comma stands within parentheses (`Host.normalize_alternatives`).
-/

namespace ScopedStyles.Host

open Text

/-! ## Parentheses -/

/-- Whether parentheses are open behind a character. They are not nested, and a comma stands only
where they are. -/
def advance : (isOpen : Bool) → Char → Option Bool
  | false, '(' => some true
  | true, '(' => none
  | true, ')' => some false
  | false, ')' => none
  | false, ',' => none
  | isOpen, _ => some isOpen

/-- An alternative closes the parentheses that it opens, and has commas only within them. -/
def IsAlternative (a : Text) : Prop := a.foldlM advance false = some false

instance (a : Text) : Decidable (IsAlternative a) := inferInstanceAs (Decidable (_ = _))

/-- How many parentheses are open behind a character. -/
def depthBehind (depth : Nat) (c : Char) : Nat :=
  if c = '(' then depth + 1 else if c = ')' then depth - 1 else depth

/-- The pieces of a text between its commas, but for those within parentheses. -/
def outerPieces (depth : Nat) : Text → List Text
  | [] => [[]]
  | c :: t =>
    if c = ',' ∧ depth = 0 then [] :: outerPieces 0 t
    else (outerPieces (depthBehind depth c) t).modifyHead (c :: ·)

variable {a tail x y : Text} {isOpen isOpen' : Bool}

theorem argument?_cons {c : Char} (h : advance isOpen c = some isOpen') (t : Text) :
    argument? isOpen (c :: t) = (argument? isOpen' t).map fun (s, rest) => (c :: s, rest) := by
  fun_cases advance isOpen c <;> simp_all [advance, argument?]

theorem outerPieces_cons {c : Char} (h : advance isOpen c = some isOpen') (t : Text) :
    outerPieces isOpen.toNat (c :: t) = (outerPieces isOpen'.toNat t).modifyHead (c :: ·) := by
  have hdepth : depthBehind isOpen.toNat c = isOpen'.toNat ∧ ¬ (c = ',' ∧ isOpen.toNat = 0) := by
    fun_cases advance isOpen c <;> cases isOpen' <;> simp_all [advance, depthBehind]
  rw [outerPieces, if_neg hdepth.2, hdepth.1]

theorem argument?_foldlM (h : a.foldlM advance isOpen = some isOpen') (t : Text) :
    argument? isOpen (a ++ t) = (argument? isOpen' t).map fun (s, rest) => (a ++ s, rest) := by
  induction a generalizing isOpen with
  | nil =>
    obtain rfl := Option.some.inj h
    simp
  | cons c a ih =>
    rw [List.foldlM_cons, Option.bind_eq_bind, Option.bind_eq_some_iff] at h
    obtain ⟨next, hnext, hrest⟩ := h
    rw [List.cons_append, argument?_cons hnext, ih hrest, Option.map_map]
    rfl

theorem outerPieces_foldlM (h : a.foldlM advance isOpen = some isOpen') (t : Text) :
    outerPieces isOpen.toNat (a ++ t) = (outerPieces isOpen'.toNat t).modifyHead (a ++ ·) := by
  induction a generalizing isOpen with
  | nil =>
    obtain rfl := Option.some.inj h
    exact (congrFun List.modifyHead_id _).symm
  | cons c a ih =>
    rw [List.foldlM_cons, Option.bind_eq_bind, Option.bind_eq_some_iff] at h
    obtain ⟨next, hnext, hrest⟩ := h
    rw [List.cons_append, outerPieces_cons hnext, ih hrest, List.modifyHead_modifyHead]
    rfl

/-- Parentheses close behind the alternatives that stand in them. -/
theorem argument?_alternatives {alternatives : List Text}
    (h : ∀ a ∈ alternatives, IsAlternative a) (t : Text) :
    argument? false ([','].intercalate alternatives ++ ')' :: t) =
      some ([','].intercalate alternatives, t) := by
  induction alternatives with
  | nil => rfl
  | cons a alternatives ih =>
    obtain ⟨ha, hothers⟩ := List.forall_mem_cons.mp h
    cases alternatives with
    | nil =>
      rw [List.intercalate_singleton, argument?_foldlM ha]
      simp [argument?]
    | cons b alternatives =>
      have hcomma : ∀ u, argument? false (',' :: u) =
          (argument? false u).map fun (s, rest) => (',' :: s, rest) := fun _ => rfl
      rw [List.intercalate_cons_cons, List.append_assoc, List.append_assoc, argument?_foldlM ha,
        List.singleton_append, hcomma, ih hothers]
      simp

/-! ## Pieces -/

/-- No comma of the text stands outside parentheses, and none are left open. -/
def IsWhole (x : Text) : Prop :=
  ∀ t, outerPieces 0 (x ++ t) = (outerPieces 0 t).modifyHead (x ++ ·)

theorem IsWhole.append (hx : IsWhole x) (hy : IsWhole y) : IsWhole (x ++ y) := by
  intro t
  rw [List.append_assoc, hx, hy, List.modifyHead_modifyHead]
  exact congrArg (List.modifyHead · _) (funext fun u => (List.append_assoc x y u).symm)

theorem IsAlternative.isWhole (h : IsAlternative a) : IsWhole a :=
  fun t => @outerPieces_foldlM a false false h t

theorem isWhole_of_forall_ne (h : ∀ c ∈ x, c ≠ ',' ∧ c ≠ '(') : IsWhole x := by
  intro t
  induction x with
  | nil => exact (congrFun List.modifyHead_id _).symm
  | cons c x ih =>
    obtain ⟨⟨hcomma, hopen⟩, hx⟩ := List.forall_mem_cons.mp h
    have hdepth : depthBehind 0 c = 0 := by simp [depthBehind, hopen]
    rw [List.cons_append, outerPieces, if_neg fun hc => hcomma hc.1, hdepth, ih hx,
      List.modifyHead_modifyHead]
    rfl

/-- What is joined by commas comes apart there. -/
theorem outerPieces_intercalate {pieces : List Text} (hne : pieces ≠ [])
    (h : ∀ p ∈ pieces, IsWhole p) : outerPieces 0 ([','].intercalate pieces) = pieces := by
  induction pieces with
  | nil => exact absurd rfl hne
  | cons p pieces ih =>
    obtain ⟨hp, hothers⟩ := List.forall_mem_cons.mp h
    cases pieces with
    | nil =>
      have hend := hp []
      rw [List.append_nil] at hend
      rw [List.intercalate_singleton, hend]
      simp [outerPieces]
    | cons q pieces =>
      have hcomma : ∀ u, outerPieces 0 (',' :: u) = [] :: outerPieces 0 u := fun _ => rfl
      rw [List.intercalate_cons_cons, List.append_assoc, hp, List.singleton_append, hcomma,
        ih (List.cons_ne_nil q pieces) hothers]
      simp

theorem outerPieces_ne_nil (depth : Nat) (t : Text) : outerPieces depth t ≠ [] := by
  induction t generalizing depth with
  | nil => exact List.cons_ne_nil _ _
  | cons c t ih =>
    rw [outerPieces]
    split
    · exact List.cons_ne_nil _ _
    · exact fun h => ih _ (List.modifyHead_eq_nil_iff.mp h)

/-- The pieces make up the text. -/
theorem intercalate_outerPieces (depth : Nat) (t : Text) :
    [','].intercalate (outerPieces depth t) = t := by
  induction t generalizing depth with
  | nil => rfl
  | cons c t ih =>
    rw [outerPieces]
    split
    · rename_i hc
      have ih := ih 0
      obtain ⟨p, pieces, hpieces⟩ := List.exists_cons_of_ne_nil (outerPieces_ne_nil 0 t)
      rw [hpieces] at ih ⊢
      rw [List.intercalate_cons_cons, ih, hc.1]
      rfl
    · have ih := ih (depthBehind depth c)
      obtain ⟨p, pieces, hpieces⟩ :=
        List.exists_cons_of_ne_nil (outerPieces_ne_nil (depthBehind depth c) t)
      rw [hpieces] at ih ⊢
      exact (append_intercalate_cons [','] [c] p pieces).symm.trans (congrArg (c :: ·) ih)

theorem foldlM_advance_of_blanks {b : Text} (hb : ∀ c ∈ b, isBlank c) (isOpen : Bool) :
    b.foldlM advance isOpen = some isOpen := by
  induction b with
  | nil => rfl
  | cons c b ih =>
    obtain ⟨hc, hb⟩ := List.forall_mem_cons.mp hb
    have hstep : advance isOpen c = some isOpen := by
      rw [advance]
      all_goals
        rintro - rfl
        exact absurd hc (by decide)
    rw [List.foldlM_cons, hstep]
    exact ih hb

theorem IsAlternative.trim (h : IsAlternative a) : IsAlternative (trim a) := by
  obtain ⟨b, b', hb, hb', ha⟩ := exists_blanks_of_trim a
  rw [IsAlternative, ha, List.foldlM_append, foldlM_advance_of_blanks hb] at h
  rw [Option.bind_eq_bind, Option.bind_some, List.foldlM_append, Option.bind_eq_bind,
    Option.bind_eq_some_iff] at h
  obtain ⟨isOpen, htrim, hclose⟩ := h
  rw [foldlM_advance_of_blanks hb'] at hclose
  rw [IsAlternative, htrim, hclose]

/-! ## Meanings -/

/-- What a name of the host in front of an alternative means: the host element matches it, or one of
its ancestors does. -/
def meanings (isContext : Bool) (tail a : Text) : List Text :=
  (anchor ++ (trim a ++ tail)) ::
    if isContext then [' ' :: (trim a ++ ' ' :: (anchor ++ tail))] else []

variable {isContext : Bool} {alternatives : List Text}

theorem IsAlternative.isWhole_meanings (h : IsAlternative a)
    (htail : ∀ c ∈ tail, c ≠ ',' ∧ c ≠ '(') :
    ∀ p ∈ meanings isContext tail a, IsWhole p := by
  have hanchor : IsWhole anchor := isWhole_of_forall_ne (by decide)
  have hblank : IsWhole [' '] := isWhole_of_forall_ne (by decide)
  have htail := isWhole_of_forall_ne htail
  rw [meanings, List.forall_mem_cons]
  refine ⟨hanchor.append (h.trim.isWhole.append htail), fun p hp => ?_⟩
  split at hp
  · rw [List.mem_singleton.mp hp]
    exact hblank.append (h.trim.isWhole.append (hblank.append (hanchor.append htail)))
  · exact absurd hp List.not_mem_nil

/-- The meanings have the letters of the alternatives, once or twice, and each has an anchor. -/
theorem count_meanings (isContext : Bool) (tail : Text) (alternatives : List Text) :
    ([','].intercalate (alternatives.flatMap (meanings isContext tail))).count 'w' =
      (if isContext then 2 else 1) * ((anchor ++ tail).count 'w' * alternatives.length +
        ([','].intercalate alternatives).count 'w') := by
  rw [count_intercalate (by decide), count_intercalate (by decide)]
  induction alternatives with
  | nil => simp
  | cons a alternatives ih =>
    rw [List.flatMap_cons, List.flatten_append, List.count_append, ih, meanings]
    have htrim := count_trim (c := 'w') (by decide) a
    cases isContext
    · simp [List.count_append, htrim]
      ring
    · simp [List.count_append, htrim]
      ring

/-- There are as many pieces as alternatives exactly if no comma stands in an alternative. -/
theorem length_flatMap_split_iff :
    (alternatives.flatMap (split ',')).length = alternatives.length ↔
      ∀ a ∈ alternatives, ',' ∉ a := by
  have hlength : (alternatives.flatMap (split ',')).length =
      (alternatives.map (List.count ',')).sum + alternatives.length := by
    induction alternatives with
    | nil => rfl
    | cons a alternatives ih =>
      rw [List.flatMap_cons, List.length_append, length_split, ih, List.map_cons, List.sum_cons,
        List.length_cons]
      omega
  rw [hlength, Nat.add_eq_right, List.sum_eq_zero_iff_forall_eq_nat]
  simp [List.count_eq_zero]

theorem flatMap_split_eq_self (h : ∀ a ∈ alternatives, ',' ∉ a) :
    alternatives.flatMap (split ',') = alternatives := by
  rw [List.flatMap_congr fun a ha => split_of_not_mem (h a ha)]
  exact List.flatMap_singleton' alternatives

theorem intercalate_flatMap_split (alternatives : List Text) :
    [','].intercalate (alternatives.flatMap (split ',')) = [','].intercalate alternatives := by
  rw [intercalate_flatMap _ fun a _ => split_ne_nil ',' a]
  simp [intercalate_split]

/-- The meanings of the pieces are those of the alternatives exactly if no comma stands in an
alternative. -/
theorem outerPieces_meanings_iff (hne : alternatives ≠ [])
    (halternatives : ∀ a ∈ alternatives, IsAlternative a)
    (htail : ∀ c ∈ tail, c ≠ ',' ∧ c ≠ '(') :
    outerPieces 0 ([','].intercalate
        ((alternatives.flatMap (split ',')).flatMap (meanings isContext tail))) =
      alternatives.flatMap (meanings isContext tail) ↔ ∀ a ∈ alternatives, ',' ∉ a := by
  constructor
  · -- there is one `w` in an anchor, so the letter counts the anchors of both lists
    intro h
    have hcount := congrArg (fun pieces => ([','].intercalate pieces).count 'w') h
    simp only [intercalate_outerPieces, count_meanings, intercalate_flatMap_split] at hcount
    have hanchor : 0 < (anchor ++ tail).count 'w' :=
      List.count_pos_iff.mpr (List.mem_append_left _ (by decide))
    have hfactor : 0 < if isContext then 2 else 1 := by split <;> decide
    have hsum := Nat.eq_of_mul_eq_mul_left hfactor hcount
    refine length_flatMap_split_iff.mp (Nat.eq_of_mul_eq_mul_left hanchor ?_)
    exact Nat.add_right_cancel hsum
  · intro h
    rw [flatMap_split_eq_self h]
    refine outerPieces_intercalate ?_ fun p hp => ?_
    · obtain ⟨a, alternatives, rfl⟩ := List.exists_cons_of_ne_nil hne
      simp [meanings]
    · obtain ⟨a, ha, hp⟩ := List.mem_flatMap.mp hp
      exact (halternatives a ha).isWhole_meanings htail p hp

/-! ## Normalizing -/

/-- The host, named in front of the alternatives. -/
def namedBefore (isContext : Bool) (alternatives : List Text) (tail : Text) : Named where
  before := []
  isContext := isContext
  word := Named.keyword isContext
  arguments := some (alternatives.flatMap (split ','))
  after := tail

/-- Nothing that is looked for again comes up where a piece of the alternatives and the tail come
next to each other. -/
def JoinsPlainly (isContext : Bool) (tail s : Text) : Prop :=
  Lacks piercing (trim s ++ tail) ∧
    (isContext = false → ¬ includes .anyCase contextMarker (trim s ++ tail))

instance (isContext : Bool) (tail s : Text) : Decidable (JoinsPlainly isContext tail s) :=
  inferInstanceAs (Decidable (_ ∧ _))

theorem isFound_namedBefore (hne : alternatives ≠ [])
    (halternatives : ∀ a ∈ alternatives, IsAlternative a)
    (htail : ∀ c ∈ tail, c ≠ ',' ∧ c ≠ '{') (hplain : ∀ a ∈ alternatives, IsPlain a)
    (hafter : IsPlain tail)
    (hjoint : ∀ a ∈ alternatives, ∀ s ∈ split ',' a, JoinsPlainly isContext tail s) :
    (namedBefore isContext alternatives tail).IsFound where
  word := by
    have hword := after?_append_self .anyCase (Named.keyword isContext) []
    rwa [List.append_nil] at hword
  before := (by decide : Lacks names [])
  after := (isPlain_iff.mp hafter).1
  tail := htail
  bare := nofun
  shorter := nofun
  nonempty := by
    obtain ⟨a, alternatives, rfl⟩ := List.exists_cons_of_ne_nil hne
    simp [namedBefore]
  closes := by
    rintro _ ⟨⟩ t
    rw [intercalate_flatMap_split]
    exact argument?_alternatives halternatives t
  arguments := by
    rintro _ ⟨⟩ s hs
    obtain ⟨a, ha, hpiece⟩ := List.mem_flatMap.mp hs
    exact ⟨(isPlain_iff.mp (hplain a ha)).1.of_isInfix (infix_of_mem_split hpiece),
      not_mem_of_mem_split hpiece⟩
  joint := by
    rintro hcontext _ ⟨⟩ s hs
    obtain ⟨a, ha, hpiece⟩ := List.mem_flatMap.mp hs
    exact (hjoint a ha s hpiece).2 hcontext

theorem map_text_expansion {s : Text} (hpiercing : Lacks piercing (trim s ++ tail)) :
    ((namedBefore isContext alternatives tail).expansion s).map (·.flatten.text) =
      meanings isContext tail s := by
  have htrim : Lacks piercing (trim s) := hpiercing.of_isInfix (List.prefix_append _ _).isInfix
  have htail : Lacks piercing tail := hpiercing.of_isInfix (List.suffix_append _ _).isInfix
  have hspace : Divides piercing ' ' := by decide
  have hbefore : Lacks piercing (' ' :: (trim s ++ [' '])) :=
    (lacks_cons hspace _).mpr ((lacks_append_cons hspace _ _).mpr ⟨htrim, by decide⟩)
  cases isContext
  · simp [namedBefore, Named.expansion, Reading.flatten, Reading.text, meanings,
      flattenCombinators_of_lacks, hpiercing, (by decide : Lacks piercing [])]
  · simp [namedBefore, Named.expansion, Reading.flatten, Reading.text, meanings,
      flattenCombinators_of_lacks, hpiercing, htail, hbefore, (by decide : Lacks piercing [])]

/-- A name of the host in front of alternatives is normalized to the meanings of the pieces between
their commas. These are the meanings of the alternatives, as many as were written, exactly if no
comma stands in parentheses. Neither the alternatives nor what follows them must name the host or
have a combinator that is flattened, and none of the words that are looked for again must come up
between them. -/
theorem normalize_alternatives (isContext : Bool) (hne : alternatives ≠ [])
    (halternatives : ∀ a ∈ alternatives, IsAlternative a)
    (htail : ∀ c ∈ tail, c ≠ ',' ∧ c ≠ '(' ∧ c ≠ '{')
    (hplain : ∀ a ∈ alternatives, IsPlain a) (hafter : IsPlain tail)
    (hjoint : ∀ a ∈ alternatives, ∀ s ∈ split ',' a, JoinsPlainly isContext tail s)
    (rest : Text) :
    ∃ list, normalize (Named.keyword isContext ++ '(' :: ([','].intercalate alternatives ++
        ')' :: (tail ++ '{' :: rest))) = list ++ '{' :: normalize rest ∧
      list = [','].intercalate
        ((alternatives.flatMap (split ',')).flatMap (meanings isContext tail)) ∧
      (outerPieces 0 list = alternatives.flatMap (meanings isContext tail) ↔
        ∀ a ∈ alternatives, ',' ∉ a) := by
  have hfound : (namedBefore isContext alternatives tail).IsFound :=
    isFound_namedBefore hne halternatives (fun c hc => ⟨(htail c hc).1, (htail c hc).2.2⟩) hplain
      hafter hjoint
  have htext : (namedBefore isContext alternatives tail).text ++ '{' :: rest =
      Named.keyword isContext ++ '(' :: ([','].intercalate alternatives ++
        ')' :: (tail ++ '{' :: rest)) := by
    simp [namedBefore, Named.text, Named.behindWord, intercalate_flatMap_split]
  have hreadings : (namedBefore isContext alternatives tail).readings.map (·.flatten.text) =
      (alternatives.flatMap (split ',')).flatMap (meanings isContext tail) := by
    obtain ⟨behind, rs, hexpansions, hreadings⟩ := hfound.exists_expansions
    have hsame : (namedBefore isContext alternatives tail).readings =
        (alternatives.flatMap (split ',')).flatMap
          (namedBefore isContext alternatives tail).expansion := hreadings.trans hexpansions.symm
    rw [hsame, List.map_flatMap]
    refine List.flatMap_congr fun s hs => ?_
    obtain ⟨a, ha, hpiece⟩ := List.mem_flatMap.mp hs
    exact map_text_expansion (hjoint a ha s hpiece).1
  refine ⟨_, ?_, rfl, outerPieces_meanings_iff hne halternatives
    fun c hc => ⟨(htail c hc).1, (htail c hc).2.1⟩⟩
  rw [← htext, hfound.normalize_append (by decide), hreadings]

/-- Parentheses without commas are kept in both meanings of an alternative. -/
theorem normalize_alternatives_context :
    normalize ":host-context(a:not(b), c) d\x7b".toList =
      "-shadowcsshost-no-combinatora:not(b) d, a:not(b) -shadowcsshost-no-combinator d,".toList ++
        "-shadowcsshost-no-combinatorc d, c -shadowcsshost-no-combinator d\x7b".toList := by
  have hcss : ":host-context(a:not(b), c) d\x7b".toList =
      Named.keyword true ++ '(' :: ([','].intercalate ["a:not(b)".toList, " c".toList] ++
        ')' :: (" d".toList ++ ['{'])) := by decide
  obtain ⟨list, hnormalize, hlist, -⟩ :=
    @normalize_alternatives " d".toList ["a:not(b)".toList, " c".toList] true (by decide)
      (by decide) (by decide) (by decide +kernel) (by decide +kernel) (by decide +kernel) []
  rw [hcss, hnormalize, hlist]
  decide +kernel

/-- A comma in parentheses separates alternatives all the same, and cuts one in two. -/
theorem normalize_cuts_alternative :
    ¬ ∀ (isContext : Bool) (alternatives : List Text) (tail : Text), alternatives ≠ [] →
      (∀ a ∈ alternatives, a ≠ [] ∧ IsAlternative a ∧ IsPlain a) →
      (∀ c ∈ tail, c ≠ ',' ∧ c ≠ '(' ∧ c ≠ '{') → IsPlain tail →
      ∃ list, normalize (Named.keyword isContext ++ '(' :: ([','].intercalate alternatives ++
          ')' :: (tail ++ ['{']))) = list ++ ['{'] ∧
        outerPieces 0 list = alternatives.flatMap (meanings isContext tail) := by
  intro h
  obtain ⟨list, hnormalize, hpieces⟩ := h false [":is(.a,.b)".toList] [' '] (by decide)
    (by decide +kernel) (by decide) (by decide)
  have hcut : normalize (Named.keyword false ++ '(' :: ([','].intercalate [":is(.a,.b)".toList] ++
      ')' :: ([' '] ++ ['{']))) =
        "-shadowcsshost-no-combinator:is(.a ,-shadowcsshost-no-combinator.b) ".toList ++ ['{'] := by
    decide +kernel
  obtain rfl := List.append_cancel_right (hnormalize.symm.trans hcut)
  exact absurd hpieces (by decide +kernel)

end ScopedStyles.Host
