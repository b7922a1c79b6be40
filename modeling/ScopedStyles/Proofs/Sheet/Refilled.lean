import ScopedStyles.Proofs.Sheet.Ends
import ScopedStyles.Proofs.Text.Scans

/-!
# Flattened texts, filled in again

Flattening loses nothing. With its blocks put back for the placeholders, one after the other, the
flattened text is the text again, if no placeholder stands outside the braces from the start
(`Block.unflatten_flatten`). What is inside and what is outside is said by counting braces from the
left end (`Block.outside`), and all blocks are balanced but one that the text leaves open
(`Block.balanced_of_mem_blocks`).
-/

namespace ScopedStyles

open Text

namespace Block

variable {depth : Nat} {b p t u : Text}

/-! ## Counting braces -/

/-- How many braces are open behind a character, where `depth` are open before it. A closing brace
that closes nothing leaves none open. -/
def openBehind (depth : Nat) (c : Char) : Nat :=
  if c = '{' then depth + 1 else if c = '}' then depth - 1 else depth

/-- What is outside all braces, and the outermost braces; `depth` braces are open at the left
end. -/
def outside (depth : Nat) : Text → Text
  | [] => []
  | c :: t =>
    if depth = 0 ∨ openBehind depth c = 0 then c :: outside (openBehind depth c) t
    else outside (openBehind depth c) t

/-- The text ends inside a brace. -/
def EndsOpen (t : Text) : Prop := t.foldl openBehind 0 ≠ 0

instance (t : Text) : Decidable (EndsOpen t) := inferInstanceAs (Decidable (_ ≠ _))

theorem openBehind_open (depth : Nat) : openBehind depth '{' = depth + 1 := rfl

theorem openBehind_close (depth : Nat) : openBehind depth '}' = depth - 1 := rfl

theorem openBehind_plain {c : Char} (hopen : c ≠ '{') (hclose : c ≠ '}') (depth : Nat) :
    openBehind depth c = depth := by
  rw [openBehind, if_neg hopen, if_neg hclose]

/-- Nothing is open where nothing has been opened. -/
theorem openBehind_zero {c : Char} (hopen : c ≠ '{') : openBehind 0 c = 0 := by
  by_cases hclose : c = '}'
  · rw [hclose, openBehind_close]
  · exact openBehind_plain hopen hclose 0

theorem foldl_openBehind_zero (hp : '{' ∉ p) : p.foldl openBehind 0 = 0 := by
  induction p with
  | nil => rfl
  | cons c p ih =>
    rw [List.mem_cons, not_or] at hp
    rw [List.foldl_cons, openBehind_zero (Ne.symm hp.1), ih hp.2]

theorem outside_append (hp : '{' ∉ p) (t : Text) : outside 0 (p ++ t) = p ++ outside 0 t := by
  induction p with
  | nil => rfl
  | cons c p ih =>
    rw [List.mem_cons, not_or] at hp
    rw [List.cons_append, outside, if_pos (.inl rfl), openBehind_zero (Ne.symm hp.1), ih hp.2]
    rfl

/-- What stays open is inside the brace in front of it, and is counted as what it opens and
closes. -/
theorem outside_append_of_staysOpen (h : StaysOpen depth b) (t : Text) :
    outside (depth + 1) (b ++ t) = outside (b.foldl openBehind (depth + 1)) t ∧
      b.foldl openBehind (depth + 1) + b.count '}' = depth + 1 + b.count '{' := by
  induction h using staysOpen_induction with
  | nil depth => exact ⟨rfl, rfl⟩
  | opening depth b h ih =>
    obtain ⟨houtside, hcount⟩ := ih
    rw [List.cons_append, outside, List.foldl_cons, openBehind_open, if_neg (by omega)]
    refine ⟨houtside, ?_⟩
    simp only [List.count_cons_self, List.count_cons_of_ne (by decide : '{' ≠ '}')]
    omega
  | closing depth b h ih =>
    obtain ⟨houtside, hcount⟩ := ih
    rw [List.cons_append, outside, List.foldl_cons, openBehind_close, Nat.add_sub_cancel,
      if_neg (by omega)]
    refine ⟨houtside, ?_⟩
    simp only [List.count_cons_self, List.count_cons_of_ne (by decide : '}' ≠ '{')]
    omega
  | plain depth c b hopen hclose h ih =>
    obtain ⟨houtside, hcount⟩ := ih
    rw [List.cons_append, outside, List.foldl_cons, openBehind_plain hopen hclose,
      if_neg (by omega), List.count_cons_of_ne hopen, List.count_cons_of_ne hclose]
    exact ⟨houtside, hcount⟩

/-- Behind a balanced text as many braces are open as in front of it. -/
theorem foldl_openBehind_of_balanced (hb : Balanced b) : b.foldl openBehind 1 = 1 := by
  have hcount := (outside_append_of_staysOpen hb.1 []).2
  have hbalance := hb.2
  rw [Nat.zero_add] at hcount
  omega

theorem outside_unclosed (hp : '{' ∉ p) (hb : StaysOpen 0 b) :
    outside 0 (p ++ '{' :: b) = p ++ ['{'] := by
  have hinside := (outside_append_of_staysOpen hb []).1
  rw [List.append_nil] at hinside
  rw [outside_append hp, outside, if_pos (.inl rfl), openBehind_open, hinside, outside]

theorem outside_closed (hp : '{' ∉ p) (hb : Balanced b) (t : Text) :
    outside 0 (p ++ '{' :: (b ++ '}' :: t)) = p ++ '{' :: '}' :: outside 0 t := by
  have hinside := (outside_append_of_staysOpen hb.1 ('}' :: t)).1
  rw [outside_append hp, outside, if_pos (.inl rfl), openBehind_open, hinside,
    foldl_openBehind_of_balanced hb, outside, if_pos (.inr rfl)]
  rfl

theorem endsOpen_unclosed (hp : '{' ∉ p) (hb : StaysOpen 0 b) : EndsOpen (p ++ '{' :: b) := by
  have hcount := (outside_append_of_staysOpen hb []).2
  have hclosed := hb b (List.prefix_refl b)
  unfold EndsOpen
  rw [List.foldl_append, foldl_openBehind_zero hp, List.foldl_cons, openBehind_open]
  omega

theorem endsOpen_closed (hp : '{' ∉ p) (hb : Balanced b) (t : Text) :
    EndsOpen (p ++ '{' :: (b ++ '}' :: t)) ↔ EndsOpen t := by
  unfold EndsOpen
  rw [List.foldl_append, foldl_openBehind_zero hp, List.foldl_cons, openBehind_open,
    List.foldl_append, foldl_openBehind_of_balanced hb, List.foldl_cons]
  rfl

/-! ## Balanced blocks -/

/-- All blocks are balanced but the last one, and that one is if the text does not leave it open. -/
theorem balanced_of_mem_blocks (t : Text) :
    (∀ b ∈ (flatten t).blocks.dropLast, Balanced b) ∧
      (¬ EndsOpen t → ∀ b ∈ (flatten t).blocks, Balanced b) := by
  induction t using block_induction with
  | plain p hp =>
    rw [flatten_plain hp]
    exact ⟨fun b hb => absurd hb List.not_mem_nil, fun _ b hb => absurd hb List.not_mem_nil⟩
  | unclosed p b hp hb =>
    rw [flatten_unclosed hp hb]
    exact ⟨fun b hb => absurd hb List.not_mem_nil,
      fun hclosed => absurd (endsOpen_unclosed hp hb) hclosed⟩
  | closed p b rest hp hb ih =>
    obtain ⟨hfront, hall⟩ := ih
    rw [flatten_closed hp hb, endsOpen_closed hp hb]
    constructor
    · intro b' hb'
      cases hblocks : (flatten rest).blocks with
      | nil =>
        rw [hblocks] at hb'
        exact absurd hb' List.not_mem_nil
      | cons next others =>
        rw [hblocks] at hb' hfront
        rcases List.mem_cons.mp hb' with rfl | hb'
        · exact hb
        · exact hfront b' hb'
    · intro hclosed b' hb'
      rcases List.mem_cons.mp hb' with rfl | hb'
      · exact hb
      · exact hall hclosed b' hb'

/-! ## Flattening what is flat -/

theorem balanced_placeholder : Balanced placeholder :=
  ⟨staysOpen_append_of_not_mem (StaysOpen.nil 0) (by decide), by decide⟩

/-- In a flattened text the blocks are the placeholders. -/
theorem flatten_skeleton (t : Text) :
    flatten (flatten t).skeleton =
      ⟨(flatten t).skeleton, (flatten t).blocks.map fun _ => placeholder⟩ := by
  induction t using block_induction with
  | plain p hp =>
    rw [flatten_plain hp]
    exact flatten_plain hp
  | unclosed p b hp hb =>
    rw [flatten_unclosed hp hb]
    exact flatten_unclosed hp balanced_placeholder.1
  | closed p b rest hp hb ih =>
    rw [flatten_closed hp hb]
    show flatten (p ++ '{' :: (placeholder ++ '}' :: (flatten rest).skeleton)) = _
    rw [flatten_closed hp balanced_placeholder, ih]
    rfl

/-! ## Filling in -/

/-- Finds placeholders. -/
def marks : Reader Unit := Reader.literal .exact placeholder

/-- A text in which placeholders were found, with the blocks put in for them, in order. -/
def fill : List (Piece Unit) → List Text → Text
  | [], _ => []
  | .plain c :: pieces, blocks => c :: fill pieces blocks
  | .found () :: pieces, b :: blocks => b ++ fill pieces blocks
  | .found () :: pieces, [] => placeholder ++ fill pieces []

/-- The text of a flattened text, with the first block for the first placeholder, and so on. -/
def unflatten (f : Flat) : Text := fill (marks.scan f.skeleton) f.blocks

theorem awaitsLiteral_marks : marks.AwaitsLiteral .exact placeholder :=
  Reader.awaitsLiteral_literal .exact placeholder

theorem fill_plain (x : Text) (pieces : List (Piece Unit)) (blocks : List Text) :
    fill (x.map .plain ++ pieces) blocks = x ++ fill pieces blocks := by
  induction x with
  | nil => rfl
  | cons c x ih => rw [List.map_cons, List.cons_append, fill, ih, List.cons_append]

/-- Behind a brace a placeholder is found, if there is none before the brace. -/
theorem scan_append_placeholder (hp : ¬ includes .exact placeholder p) (u : Text) :
    marks.scan (p ++ '{' :: (placeholder ++ u)) =
      (p ++ ['{']).map .plain ++ .found () :: marks.scan u := by
  have hpasses : marks.Passes (p ++ ['{']) (placeholder ++ u) :=
    awaitsLiteral_marks.passes_append_singleton hp (by decide) (by decide) _
  have hread : marks.Scans placeholder u [.found ()] := by
    apply Reader.scans_of_read
    show (if placeholder = [] then none
      else (after? .exact placeholder (placeholder ++ u)).map ((), ·)) = some ((), u)
    rw [if_neg (by decide), after?_append_self]
    rfl
  rw [List.append_cons, hpasses.scan_append, hread]
  rfl

theorem scan_close (u : Text) : marks.scan ('}' :: u) = .plain '}' :: marks.scan u :=
  Reader.scan_of_none
    (awaitsLiteral_marks _ (after?_cons_of_disagree (by decide) (by decide) u))

/-- If no placeholder stands outside the braces from the start, there is one for each block, and
with the blocks put back the text is what it was. -/
theorem unflatten_flatten (h : ¬ includes .exact placeholder (outside 0 t)) :
    (marks.found (flatten t).skeleton).length = (flatten t).blocks.length ∧
      unflatten (flatten t) = t := by
  induction t using block_induction with
  | plain p hp =>
    have houtside : outside 0 p = p := by
      have hnone := outside_append hp []
      rwa [List.append_nil, outside, List.append_nil] at hnone
    rw [houtside] at h
    have hscan := (awaitsLiteral_marks.passes h bars_nil).scan_eq
    have hfill := fill_plain p [] []
    rw [List.append_nil, ← hscan, fill, List.append_nil] at hfill
    rw [flatten_plain hp]
    exact ⟨congrArg List.length (Reader.found_of_not_includes awaitsLiteral_marks h), hfill⟩
  | unclosed p b hp hb =>
    rw [outside_unclosed hp hb, includes_append_cons (by decide) (by decide), Bool.or_eq_true,
      not_or] at h
    have hscan := scan_append_placeholder h.1 []
    rw [List.append_nil, Reader.scan_nil] at hscan
    rw [flatten_unclosed hp hb, unflatten, Reader.found_eq_flatMap, hscan]
    constructor
    · rw [List.flatMap_append, Reader.flatMap_foundIn_plain]
      rfl
    · rw [fill_plain, fill, fill, List.append_nil]
      simp
  | closed p b rest hp hb ih =>
    rw [outside_closed hp hb, includes_append_cons (by decide) (by decide), Bool.or_eq_true,
      not_or, includes_cons, after?_cons_of_disagree (by decide) (by decide)] at h
    obtain ⟨hfound, hrest⟩ := ih h.2
    have hscan := scan_append_placeholder h.1 ('}' :: (flatten rest).skeleton)
    rw [scan_close] at hscan
    rw [Reader.found_eq_flatMap] at hfound
    rw [flatten_closed hp hb, unflatten, Reader.found_eq_flatMap, hscan]
    constructor
    · rw [List.flatMap_append, Reader.flatMap_foundIn_plain, List.flatMap_cons, List.flatMap_cons]
      exact congrArg Nat.succ hfound
    · rw [fill_plain, fill, fill]
      show p ++ ['{'] ++ (b ++ '}' :: unflatten (flatten rest)) = _
      rw [hrest]
      simp

/-- With the blocks put back for the placeholders a flattened text is the text, if no placeholder
stands outside the braces from the start. Of any text the blocks are balanced, but for the last one
if the text leaves it open, and the flattened text is flat. -/
theorem flatten_lossless (t : Text) :
    (¬ includes .exact placeholder (outside 0 t) →
        (marks.found (flatten t).skeleton).length = (flatten t).blocks.length ∧
          unflatten (flatten t) = t) ∧
      (∀ b ∈ (flatten t).blocks.dropLast, Balanced b) ∧
      (¬ EndsOpen t → ∀ b ∈ (flatten t).blocks, Balanced b) ∧
      (flatten (flatten t).skeleton).skeleton = (flatten t).skeleton := by
  obtain ⟨hfront, hall⟩ := balanced_of_mem_blocks t
  refine ⟨unflatten_flatten, hfront, hall, ?_⟩
  rw [flatten_skeleton]

/-- A brace too many, a placeholder in a block, an empty block and one that is left open. -/
theorem flatten_lossless_open :
    (marks.found
        (flatten "\x7d a \x7b%BLOCK%\x7b\x7d\x7d\x7b\x7d%BLOCK\x7b".toList).skeleton).length = 3 ∧
      unflatten (flatten "\x7d a \x7b%BLOCK%\x7b\x7d\x7d\x7b\x7d%BLOCK\x7b".toList) =
        "\x7d a \x7b%BLOCK%\x7b\x7d\x7d\x7b\x7d%BLOCK\x7b".toList := by
  obtain ⟨hfound, hfilled⟩ :=
    (flatten_lossless "\x7d a \x7b%BLOCK%\x7b\x7d\x7d\x7b\x7d%BLOCK\x7b".toList).1
      (by decide +kernel)
  exact ⟨hfound.trans (by decide +kernel), hfilled⟩

end Block

end ScopedStyles
