import Mathlib.Data.List.TakeWhile
import ScopedStyles.Proofs.Sheet.Basic

/-!
# Reading sheets

Every text has exactly one structure (`Sheet.existsUnique_reads`). The block behind an opening brace
and its end are found from left to right: `Block.body` finds the brace that closes the block and
`Rule.splitEnd` what belongs to it, and both agree with `Closes`.
-/

namespace ScopedStyles

open Text

/-! ## Braces -/

theorem StaysOpen.nil (depth : Nat) : StaysOpen depth [] := by
  intro p hp
  rw [List.prefix_nil.mp hp]
  simp

theorem staysOpen_cons_open {depth : Nat} {t : Text} :
    StaysOpen depth ('{' :: t) ↔ StaysOpen (depth + 1) t := by
  constructor
  · intro h p hp
    have := h ('{' :: p) (List.cons_prefix_cons.mpr ⟨rfl, hp⟩)
    simp at this
    omega
  · intro h p hp
    rcases List.prefix_cons_iff.mp hp with rfl | ⟨q, rfl, hq⟩
    · simp
    · have := h q hq
      simp
      omega

theorem staysOpen_cons_close {depth : Nat} {t : Text} :
    StaysOpen depth ('}' :: t) ↔ 0 < depth ∧ StaysOpen (depth - 1) t := by
  constructor
  · intro h
    have hpos := h ['}'] (List.cons_prefix_cons.mpr ⟨rfl, List.nil_prefix⟩)
    simp at hpos
    refine ⟨hpos, fun p hp => ?_⟩
    have := h ('}' :: p) (List.cons_prefix_cons.mpr ⟨rfl, hp⟩)
    simp at this
    omega
  · rintro ⟨hpos, h⟩ p hp
    rcases List.prefix_cons_iff.mp hp with rfl | ⟨q, rfl, hq⟩
    · simp
    · have := h q hq
      simp
      omega

theorem staysOpen_cons_plain {depth : Nat} {c : Char} {t : Text} (hopen : c ≠ '{')
    (hclose : c ≠ '}') : StaysOpen depth (c :: t) ↔ StaysOpen depth t := by
  constructor
  · intro h p hp
    have := h (c :: p) (List.cons_prefix_cons.mpr ⟨rfl, hp⟩)
    simpa [hopen, hclose] using this
  · intro h p hp
    rcases List.prefix_cons_iff.mp hp with rfl | ⟨q, rfl, hq⟩
    · simp
    · simpa [hopen, hclose] using h q hq

/-- What holds of the empty text, and of a text with one more character in front if it holds of the
text with as many braces open as there are behind that character, holds of every text that stays
open. -/
theorem staysOpen_induction {P : ∀ depth t, StaysOpen depth t → Prop}
    (nil : ∀ depth, P depth [] (StaysOpen.nil depth))
    (opening : ∀ depth t (h : StaysOpen (depth + 1) t),
      P (depth + 1) t h → P depth ('{' :: t) (staysOpen_cons_open.mpr h))
    (closing : ∀ depth t (h : StaysOpen depth t), P depth t h →
      P (depth + 1) ('}' :: t) (staysOpen_cons_close.mpr ⟨Nat.succ_pos depth, h⟩))
    (plain : ∀ depth c t (hopen : c ≠ '{') (hclose : c ≠ '}') (h : StaysOpen depth t),
      P depth t h → P depth (c :: t) ((staysOpen_cons_plain hopen hclose).mpr h))
    {depth : Nat} {t : Text} (h : StaysOpen depth t) : P depth t h := by
  induction t generalizing depth with
  | nil => exact nil depth
  | cons c t ih =>
    by_cases hopen : c = '{'
    · subst hopen
      exact opening depth t (staysOpen_cons_open.mp h) (ih _)
    · by_cases hclose : c = '}'
      · subst hclose
        obtain ⟨hpos, ht⟩ := staysOpen_cons_close.mp h
        cases depth with
        | zero => exact absurd hpos (Nat.lt_irrefl 0)
        | succ depth => exact closing depth t ht (ih _)
      · exact plain depth c t hopen hclose ((staysOpen_cons_plain hopen hclose).mp h) (ih _)

namespace Block

theorem body_cons_plain {depth : Nat} {c : Char} {t : Text} (hopen : c ≠ '{') (hclose : c ≠ '}') :
    body depth (c :: t) = (c :: (body depth t).1, (body depth t).2) := by
  rw [body]
  · exact hopen
  · exact fun _ hc => hclose hc
  · exact fun _ _ hc => hclose hc

/-- A text that closes nothing outside it stands in the block, and the block goes on behind it. -/
theorem body_append_of_staysOpen {depth : Nat} {b : Text} (h : StaysOpen depth b) (t : Text) :
    body depth (b ++ t) =
      (b ++ (body (depth + b.count '{' - b.count '}') t).1,
        (body (depth + b.count '{' - b.count '}') t).2) := by
  induction h using staysOpen_induction with
  | nil depth => simp
  | opening depth b h ih =>
    rw [List.cons_append, body, ih]
    simp [Nat.add_assoc, Nat.add_comm 1]
  | closing depth b h ih =>
    rw [List.cons_append, body, ih]
    simp [Nat.add_right_comm]
  | plain depth c b hopen hclose h ih =>
    rw [List.cons_append, body_cons_plain hopen hclose, ih]
    simp [hopen, hclose]

/-- A block closes nothing outside it, and it ends with the text or before a brace that closes
it. -/
theorem staysOpen_body (depth : Nat) (t : Text) :
    StaysOpen depth (body depth t).1 ∧
      ((body depth t).2 = [] ∨
        (∃ rest, (body depth t).2 = '}' :: rest) ∧
          (body depth t).1.count '}' = depth + (body depth t).1.count '{') := by
  induction t generalizing depth with
  | nil => exact ⟨StaysOpen.nil depth, .inl rfl⟩
  | cons c t ih =>
    by_cases hopen : c = '{'
    · subst hopen
      obtain ⟨hstay, hend⟩ := ih (depth + 1)
      rw [body]
      refine ⟨staysOpen_cons_open.mpr hstay, hend.imp_right fun ⟨hrest, hcount⟩ => ⟨hrest, ?_⟩⟩
      simp
      omega
    · by_cases hclose : c = '}'
      · subst hclose
        cases depth with
        | zero => exact ⟨StaysOpen.nil 0, .inr ⟨⟨t, rfl⟩, rfl⟩⟩
        | succ depth =>
          obtain ⟨hstay, hend⟩ := ih depth
          rw [body]
          refine ⟨staysOpen_cons_close.mpr ⟨by omega, hstay⟩,
            hend.imp_right fun ⟨hrest, hcount⟩ => ⟨hrest, ?_⟩⟩
          simp
          omega
      · obtain ⟨hstay, hend⟩ := ih depth
        rw [body_cons_plain hopen hclose]
        refine ⟨(staysOpen_cons_plain hopen hclose).mpr hstay,
          hend.imp_right fun ⟨hrest, hcount⟩ => ⟨hrest, ?_⟩⟩
        simpa [hopen, hclose] using hcount

end Block

/-! ## The end of a block -/

theorem Balanced.body_append_close {body : Text} (h : Balanced body) (t : Text) :
    Block.body 0 (body ++ '}' :: t) = (body, '}' :: t) := by
  rw [Block.body_append_of_staysOpen h.1, h.2]
  simp [Block.body]

/-- The block behind an opening brace is the one that the brace or the end of the text closes. -/
theorem Closes.body_eq {body close rest : Text} (h : Closes body close rest) :
    Block.body 0 (body ++ (close ++ rest)) = (body, close ++ rest) := by
  cases h with
  | semicolon hbody hblanks => exact hbody.body_append_close _
  | brace hbody hblanks hrest => exact hbody.body_append_close _
  | missing hbody =>
    rw [Block.body_append_of_staysOpen hbody]
    simp [Block.body]

namespace Rule

theorem splitSemicolon_semicolon {blanks : Text} (h : ∀ c ∈ blanks, isBlank c) (t : Text) :
    splitSemicolon (blanks ++ ';' :: t) = (blanks ++ [';'], t) := by
  have hstop : isBlank ';' = false := by decide
  rw [splitSemicolon, List.dropWhile_append_of_pos h, List.takeWhile_append_of_pos h]
  simp [hstop]

theorem splitSemicolon_blanks {blanks t : Text} (h : ∀ c ∈ blanks, isBlank c)
    (ht : ∀ c ∈ t.head?, ¬ isBlank c ∧ c ≠ ';') : splitSemicolon (blanks ++ t) = (blanks, t) := by
  rw [splitSemicolon, List.dropWhile_append_of_pos h, List.takeWhile_append_of_pos h]
  cases t with
  | nil => simp
  | cons c t =>
    obtain ⟨hblank, hsemicolon⟩ := ht c rfl
    rw [List.dropWhile_cons_of_neg hblank, List.takeWhile_cons_of_neg hblank, List.append_nil]
    split
    · rename_i heq
      exact absurd (List.cons.inj heq).1 hsemicolon
    · rfl

/-- The end of a block is a brace, with the blanks and the semicolon behind it. -/
theorem splitEnd_of_closes {body close rest : Text} (h : Closes body close rest) :
    splitEnd (close ++ rest) = (close, rest) := by
  cases h with
  | semicolon hbody hblanks =>
    simp [splitEnd, splitBrace, splitSemicolon_semicolon hblanks]
  | brace hbody hblanks hrest =>
    simp [splitEnd, splitBrace, splitSemicolon_blanks hblanks hrest]
  | missing hbody => rfl

/-- What stands behind the closing brace of a block ends it. -/
theorem closes_splitEnd {body : Text} (hbody : Balanced body) (t : Text) :
    Closes body (splitEnd ('}' :: t)).1 (splitEnd ('}' :: t)).2 := by
  have hblanks : ∀ c ∈ t.takeWhile isBlank, isBlank c := fun c hc => List.mem_takeWhile_imp hc
  simp only [splitEnd, splitBrace, splitSemicolon]
  split
  · exact .semicolon hbody hblanks
  · rename_i hsemicolon
    refine .brace hbody hblanks fun c hc => ?_
    obtain ⟨rest, hrest⟩ : ∃ rest, t.dropWhile isBlank = c :: rest := List.head?_eq_some_iff.mp hc
    refine ⟨?_, fun hc => hsemicolon rest (hc ▸ hrest)⟩
    have hhead := List.head?_dropWhile_not isBlank t
    rw [hrest] at hhead
    simpa using hhead

/-- The block behind an opening brace closes, and what closes it stands behind it. -/
theorem closes_body (t : Text) :
    Closes (Block.body 0 t).1 (splitEnd (Block.body 0 t).2).1 (splitEnd (Block.body 0 t).2).2 := by
  obtain ⟨hstay, hmissing | ⟨⟨rest, hrest⟩, hcount⟩⟩ := Block.staysOpen_body 0 t
  · rw [hmissing]
    exact .missing hstay
  · rw [hrest]
    exact closes_splitEnd ⟨hstay, by omega⟩ rest

/-- A block and its end stand in the text in front of what follows. -/
theorem body_append_splitEnd (t : Text) :
    (Block.body 0 t).1 ++
      ((splitEnd (Block.body 0 t).2).1 ++ (splitEnd (Block.body 0 t).2).2) = t := by
  rw [splitEnd_append, Block.body_append]

end Rule

/-! ## Reading a text -/

theorem isRun_iff {t : Text} : IsRun t ↔ ∀ c ∈ t, Rule.inPrelude c := by
  simp [IsRun, Rule.inPrelude, and_assoc]

theorem isRun_takeWhile (t : Text) : IsRun (t.takeWhile Rule.inPrelude) :=
  isRun_iff.mpr fun _ hc => List.mem_takeWhile_imp hc

theorem IsRun.takeWhile_append {p : Text} (hp : IsRun p) {c : Char} (hc : ¬ Rule.inPrelude c)
    (t : Text) : (p ++ c :: t).takeWhile Rule.inPrelude = p := by
  rw [List.takeWhile_append_of_pos (isRun_iff.mp hp), List.takeWhile_cons_of_neg hc,
    List.append_nil]

theorem IsRun.dropWhile_append {p : Text} (hp : IsRun p) {c : Char} (hc : ¬ Rule.inPrelude c)
    (t : Text) : (p ++ c :: t).dropWhile Rule.inPrelude = c :: t := by
  rw [List.dropWhile_append_of_pos (isRun_iff.mp hp), List.dropWhile_cons_of_neg hc]

/-- What ends a run, and is neither a semicolon nor a closing brace, opens a block. -/
theorem eq_open_of_dropWhile {t rest : Text} {c : Char}
    (h : t.dropWhile Rule.inPrelude = c :: rest) (hsemicolon : c ≠ ';') (hclose : c ≠ '}') :
    c = '{' := by
  have hc := List.head?_dropWhile_not Rule.inPrelude t
  rw [h] at hc
  simpa [Rule.inPrelude, hsemicolon, hclose] using hc

namespace Sheet

/-- The sheet of a text, from left to right. -/
def read (t : Text) : Sheet :=
  let run := t.takeWhile Rule.inPrelude
  match _hrest : t.dropWhile Rule.inPrelude with
  | [] => fragment run
  | ';' :: rest => statement run (read rest)
  | '}' :: rest => stray run (read rest)
  | _ :: rest =>
    let body := (Block.body 0 rest).1
    let close := (Rule.splitEnd (Block.body 0 rest).2).1
    let behind := (Rule.splitEnd (Block.body 0 rest).2).2
    if OpensLevel run then group run (read body) close (read behind)
    else block run body close (read behind)
termination_by t.length
decreasing_by
  all_goals
    have hlen := (List.dropWhile_suffix (l := t) Rule.inPrelude).length_le
    rw [_hrest] at hlen
    have hbody := congrArg List.length (Block.body_append 0 rest)
    have hend := Rule.length_splitEnd_le (Block.body 0 rest).2
    simp only [List.length_cons, List.length_append] at *
    omega

/-- The sheet of a text is its structure. -/
theorem reads_read (t : Text) : (read t).Reads t := by
  fun_induction read t with
  | case1 t run hrest =>
    have hrun : run = t := by
      have := List.takeWhile_append_dropWhile (p := Rule.inPrelude) (l := t)
      rwa [hrest, List.append_nil] at this
    exact hrun ▸ Reads.fragment (isRun_takeWhile t)
  | case2 t run rest hrest ih =>
    have ht : run ++ ';' :: rest = t := hrest ▸ List.takeWhile_append_dropWhile
    exact ht ▸ Reads.statement (isRun_takeWhile t) ih
  | case3 t run rest hrest ih =>
    have ht : run ++ '}' :: rest = t := hrest ▸ List.takeWhile_append_dropWhile
    exact ht ▸ Reads.stray (isRun_takeWhile t) ih
  | case4 t run c rest hsemicolon hclose hrest body close behind hlevel ihbody ih =>
    obtain rfl := eq_open_of_dropWhile hrest hsemicolon hclose
    have ht : run ++ '{' :: (body ++ (close ++ behind)) = t := by
      rw [Rule.body_append_splitEnd, ← hrest, List.takeWhile_append_dropWhile]
    exact ht ▸ Reads.group (isRun_takeWhile t) hlevel (Rule.closes_body rest) ihbody ih
  | case5 t run c rest hsemicolon hclose hrest body close behind hlevel ih =>
    obtain rfl := eq_open_of_dropWhile hrest hsemicolon hclose
    have ht : run ++ '{' :: (body ++ (close ++ behind)) = t := by
      rw [Rule.body_append_splitEnd, ← hrest, List.takeWhile_append_dropWhile]
    exact ht ▸ Reads.block (isRun_takeWhile t) hlevel (Rule.closes_body rest) ih

theorem read_run {p : Text} (hp : IsRun p) : read p = fragment p := by
  have htake : p.takeWhile Rule.inPrelude = p := List.takeWhile_eq_self_iff.mpr (isRun_iff.mp hp)
  have hdrop : p.dropWhile Rule.inPrelude = [] := List.dropWhile_eq_nil_iff.mpr (isRun_iff.mp hp)
  rw [read]
  split <;> simp_all

theorem read_semicolon {p : Text} (hp : IsRun p) (t : Text) :
    read (p ++ ';' :: t) = statement p (read t) := by
  have htake := hp.takeWhile_append (c := ';') (by decide) t
  have hdrop := hp.dropWhile_append (c := ';') (by decide) t
  rw [read]
  split <;> simp_all

theorem read_close {p : Text} (hp : IsRun p) (t : Text) :
    read (p ++ '}' :: t) = stray p (read t) := by
  have htake := hp.takeWhile_append (c := '}') (by decide) t
  have hdrop := hp.dropWhile_append (c := '}') (by decide) t
  rw [read]
  split <;> simp_all

theorem read_open {p body close t : Text} (hp : IsRun p) (hclose : Closes body close t) :
    read (p ++ '{' :: (body ++ (close ++ t))) =
      if OpensLevel p then group p (read body) close (read t)
      else block p body close (read t) := by
  have htake := hp.takeWhile_append (c := '{') (by decide) (body ++ (close ++ t))
  have hdrop := hp.dropWhile_append (c := '{') (by decide) (body ++ (close ++ t))
  have hbody := hclose.body_eq
  have hend := Rule.splitEnd_of_closes hclose
  rw [read]
  split <;> simp_all

/-- No other sheet is the structure of a text. -/
theorem Reads.eq_read {sheet : Sheet} {t : Text} (h : sheet.Reads t) : sheet = read t := by
  induction h with
  | fragment hrun => rw [read_run hrun]
  | statement hrun hrest ih => rw [read_semicolon hrun, ih]
  | stray hrun hrest ih => rw [read_close hrun, ih]
  | block hrun hlevel hclose hrest ih => rw [read_open hrun hclose, if_neg hlevel, ih]
  | group hrun hlevel hclose hbody hrest ihbody ih =>
    rw [read_open hrun hclose, if_pos hlevel, ihbody, ih]

/-- Every text has exactly one structure. -/
theorem existsUnique_reads (t : Text) : ∃! sheet : Sheet, sheet.Reads t :=
  ⟨read t, reads_read t, fun _ h => h.eq_read⟩

end Sheet

end ScopedStyles
