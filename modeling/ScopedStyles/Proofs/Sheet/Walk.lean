import ScopedStyles.Proofs.Sheet.Reading

/-!
# The rules of a sheet

`Rule.items` finds the rules of a level in the flattened text and hands the blocks out in order.
Where no prelude at the top level is blank it finds what the sheet of the text has
(`Sheet.Reads.items_eq`): each block goes back to its own prelude.
-/

namespace ScopedStyles

open Text

/-! ## Flattening -/

namespace Block

theorem flatten_nil : flatten [] = ⟨[], []⟩ := by
  simp [flatten, Reader.substitute, Reader.found]

theorem flatten_cons {c : Char} (hc : c ≠ '{') (t : Text) :
    flatten (c :: t) = ⟨c :: (flatten t).skeleton, (flatten t).blocks⟩ := by
  have hread : reader.read (c :: t) = none := by
    show read (c :: t) = none
    rw [read]
    exact fun _ h => hc (List.cons.inj h).1
  simp [flatten, Reader.substitute, Reader.found, Reader.scan_of_none hread]

theorem flatten_append {p : Text} (hp : ∀ c ∈ p, c ≠ '{') (t : Text) :
    flatten (p ++ t) = ⟨p ++ (flatten t).skeleton, (flatten t).blocks⟩ := by
  induction p with
  | nil => rfl
  | cons c p ih =>
    rw [List.forall_mem_cons] at hp
    rw [List.cons_append, flatten_cons hp.1, ih hp.2]
    rfl

theorem flatten_open (t : Text) :
    flatten ('{' :: t) =
      ⟨'{' :: (placeholder ++ (flatten (body 0 t).2).skeleton),
        (body 0 t).1 :: (flatten (body 0 t).2).blocks⟩ := by
  have hread : reader.read ('{' :: t) = some (body 0 t) := rfl
  simp [flatten, Reader.substitute, Reader.found, Reader.scan_of_read hread]

end Block

theorem Closes.ne_open {body close rest : Text} (h : Closes body close rest) :
    ∀ c ∈ close, c ≠ '{' := by
  have hblank : ∀ c, isBlank c → c ≠ '{' := by
    rintro c hc rfl
    exact absurd hc (by decide)
  cases h with
  | semicolon hbody hblanks =>
    intro c hc
    simp only [List.mem_cons, List.mem_append, List.not_mem_nil, or_false] at hc
    rcases hc with rfl | hc | rfl
    · decide
    · exact hblank c (hblanks c hc)
    · decide
  | brace hbody hblanks hrest =>
    intro c hc
    rcases List.mem_cons.mp hc with rfl | hc
    · decide
    · exact hblank c (hblanks c hc)
  | missing hbody => simp

/-- A block is flattened to its placeholder, between its braces. -/
theorem Closes.flatten_eq {body close rest : Text} (h : Closes body close rest) :
    Block.flatten ('{' :: (body ++ (close ++ rest))) =
      ⟨'{' :: (Block.placeholder ++ (close ++ (Block.flatten rest).skeleton)),
        body :: (Block.flatten rest).blocks⟩ := by
  rw [Block.flatten_open, h.body_eq, Block.flatten_append h.ne_open]

/-- Behind the end of a block the flattened text begins as the text does. -/
theorem Closes.flatten {body close rest : Text} (h : Closes body close rest) :
    Closes body close (Block.flatten rest).skeleton := by
  cases h with
  | semicolon hbody hblanks => exact .semicolon hbody hblanks
  | brace hbody hblanks hrest =>
    refine .brace hbody hblanks ?_
    cases rest with
    | nil => simp [Block.flatten_nil]
    | cons c rest =>
      by_cases hc : c = '{'
      · subst hc
        simpa [Block.flatten_open] using hrest
      · simpa [Block.flatten_cons hc] using hrest
  | missing hbody =>
    rw [Block.flatten_nil]
    exact .missing hbody

/-! ## Preludes -/

theorem HasInk.ne_nil {p : Text} (h : HasInk p) : p ≠ [] := by
  rintro rfl
  obtain ⟨c, hc, -⟩ := h
  exact absurd hc List.not_mem_nil

theorem HasInk.trimStart_ne_nil {p : Text} (h : HasInk p) : trimStart p ≠ [] := by
  obtain ⟨c, hc, hink⟩ := h
  intro hnil
  exact hink (List.dropWhile_eq_nil_iff.mp hnil c hc)

/-- The blanks at the beginning of a text that is not blank are none of those at its end. -/
theorem HasInk.blanksAtEnd_trimStart {p : Text} (h : HasInk p) :
    blanksAtEnd (trimStart p) = blanksAtEnd p := by
  obtain ⟨c, hc, hink⟩ := h
  have hmem : c ∈ trimStart p := by
    have hsplit : c ∈ p.takeWhile isBlank ++ p.dropWhile isBlank := by
      rwa [List.takeWhile_append_dropWhile]
    rcases List.mem_append.mp hsplit with hc | hc
    · exact absurd (List.mem_takeWhile_imp hc) hink
    · exact hc
  have hreverse : p.reverse = (trimStart p).reverse ++ (p.takeWhile isBlank).reverse := by
    rw [← List.reverse_append, trimStart, List.takeWhile_append_dropWhile]
  have hshort :
      ((trimStart p).reverse.takeWhile isBlank).length ≠ (trimStart p).reverse.length := by
    intro hlen
    have hall := (List.takeWhile_prefix isBlank).eq_of_length hlen
    exact hink (List.takeWhile_eq_self_iff.mp hall c (List.mem_reverse.mpr hmem))
  rw [blanksAtEnd, blanksAtEnd, hreverse, List.takeWhile_append, if_neg hshort]

namespace Rule

/-- The selector of a prelude that is not blank stands between its blanks. -/
theorem splitRun_of_hasInk {p : Text} (h : HasInk p) :
    splitRun p = (p.takeWhile isBlank, trim p, blanksAtEnd p) := by
  rw [splitRun, ← h.blanksAtEnd_trimStart]
  split
  · rename_i hnil
    exact absurd hnil h.trimStart_ne_nil
  · rfl

/-! ## Parts -/

/-- The first part of a text, by its first run and the character `c` that ends it. -/
theorem parts_append {run rest : Text} {c : Char} (hrun : IsRun run) (hc : ¬ inPrelude c) :
    parts (run ++ c :: rest) =
      if run = [] then .copied [c] :: parts rest
      else if c = ';' then
        .statement ⟨(splitRun run).1, (splitRun run).2.2, [';']⟩ (splitRun run).2.1 :: parts rest
      else
        match after? .exact ('{' :: Block.placeholder) (c :: rest) with
        | none => .copied (run ++ [c]) :: parts rest
        | some tail =>
          .block ⟨(splitRun run).1, (splitRun run).2.2 ++ ['{'], (splitEnd tail).1⟩
            (splitRun run).2.1 :: parts (splitEnd tail).2 := by
  have hdrop := hrun.dropWhile_append hc rest
  rw [parts]
  simp only [hrun.takeWhile_append hc]
  split
  · simp_all
  · rename_i d u hdu
    obtain ⟨rfl, rfl⟩ := List.cons.inj (hdu.symm.trans hdrop)
    split
    · rfl
    · split
      · rfl
      · split <;> simp_all

theorem parts_run {p : Text} (hp : IsRun p) : parts p = if p = [] then [] else [.copied p] := by
  have htake : p.takeWhile inPrelude = p := List.takeWhile_eq_self_iff.mpr (isRun_iff.mp hp)
  have hdrop : p.dropWhile inPrelude = [] := List.dropWhile_eq_nil_iff.mpr (isRun_iff.mp hp)
  rw [parts]
  simp only [htake]
  split
  · rfl
  · simp_all

theorem parts_semicolon {p : Text} (hp : IsRun p) (hink : HasInk p) (t : Text) :
    parts (p ++ ';' :: t) =
      .statement ⟨p.takeWhile isBlank, blanksAtEnd p, [';']⟩ (trim p) :: parts t := by
  rw [parts_append hp (by decide), splitRun_of_hasInk hink]
  simp [hink.ne_nil]

theorem parts_close {p : Text} (hp : IsRun p) (t : Text) :
    parts (p ++ '}' :: t) = .copied (p ++ ['}']) :: parts t := by
  have hblock : after? .exact ('{' :: Block.placeholder) ('}' :: t) = none := rfl
  rw [parts_append hp (by decide), hblock]
  by_cases hne : p = []
  · simp [hne]
  · simp [hne]

theorem parts_open {p body close t : Text} (hp : IsRun p) (hink : HasInk p)
    (hclose : Closes body close t) :
    parts (p ++ '{' :: (Block.placeholder ++ (close ++ t))) =
      .block ⟨p.takeWhile isBlank, blanksAtEnd p ++ ['{'], close⟩ (trim p) :: parts t := by
  have hblock : after? .exact ('{' :: Block.placeholder)
      ('{' :: (Block.placeholder ++ (close ++ t))) = some (close ++ t) := after?_exact.mpr rfl
  rw [parts_append hp (by decide), splitRun_of_hasInk hink, hblock]
  simp [hink.ne_nil, splitEnd_of_closes hclose]

/-! ## Items -/

theorem items_run {p : Text} (hp : IsRun p) : items p = if p = [] then [] else [.copied p] := by
  have hflat := Block.flatten_append (fun c hc => (hp c hc).2.1) []
  rw [List.append_nil, Block.flatten_nil, List.append_nil] at hflat
  rw [items, hflat, parts_run hp]
  split <;> rfl

theorem items_semicolon {p : Text} (hp : IsRun p) (hink : HasInk p) (t : Text) :
    items (p ++ ';' :: t) =
      .rule ⟨p.takeWhile isBlank, blanksAtEnd p, [';']⟩ ⟨trim p, []⟩ :: items t := by
  rw [items, Block.flatten_append (fun c hc => (hp c hc).2.1), Block.flatten_cons (by decide),
    parts_semicolon hp hink, fill, items]

theorem items_close {p : Text} (hp : IsRun p) (t : Text) :
    items (p ++ '}' :: t) = .copied (p ++ ['}']) :: items t := by
  rw [items, Block.flatten_append (fun c hc => (hp c hc).2.1), Block.flatten_cons (by decide),
    parts_close hp, fill, items]

/-- The placeholder of a block meets the block itself at the head of the queue. -/
theorem items_open {p body close t : Text} (hp : IsRun p) (hink : HasInk p)
    (hclose : Closes body close t) :
    items (p ++ '{' :: (body ++ (close ++ t))) =
      .rule ⟨p.takeWhile isBlank, blanksAtEnd p ++ ['{'], close⟩ ⟨trim p, body⟩ :: items t := by
  rw [items, Block.flatten_append (fun c hc => (hp c hc).2.1), hclose.flatten_eq,
    parts_open hp hink hclose.flatten, fill, items]

end Rule

namespace Sheet

/-- The rules at the top level of a sheet, and what stands between them. -/
def items : Sheet → List Rule.Item
  | fragment t => if t = [] then [] else [.copied t]
  | statement p rest =>
    .rule ⟨p.takeWhile isBlank, blanksAtEnd p, [';']⟩ ⟨trim p, []⟩ :: rest.items
  | stray t rest => .copied (t ++ ['}']) :: rest.items
  | block p body close rest =>
    .rule ⟨p.takeWhile isBlank, blanksAtEnd p ++ ['{'], close⟩ ⟨trim p, body⟩ :: rest.items
  | group p body close rest =>
    .rule ⟨p.takeWhile isBlank, blanksAtEnd p ++ ['{'], close⟩ ⟨trim p, body.text⟩ :: rest.items

/-- Each block and each statement at the top level has a prelude that is not blank. -/
def NamesRules : Sheet → Prop
  | fragment _ => True
  | statement p rest => HasInk p ∧ rest.NamesRules
  | stray _ rest => rest.NamesRules
  | block p _ _ rest => HasInk p ∧ rest.NamesRules
  | group p _ _ rest => HasInk p ∧ rest.NamesRules

instance decidableNamesRules : (sheet : Sheet) → Decidable sheet.NamesRules
  | fragment _ => isTrue trivial
  | stray _ rest => rest.decidableNamesRules
  | statement p rest | block p _ _ rest | group p _ _ rest =>
    have := rest.decidableNamesRules
    inferInstanceAs (Decidable (HasInk p ∧ rest.NamesRules))

/-- The rules found in a text are those of its sheet, each with its own block. -/
theorem Reads.items_eq {sheet : Sheet} {t : Text} (h : sheet.Reads t) (hp : sheet.NamesRules) :
    Rule.items t = sheet.items := by
  induction h with
  | fragment hrun => rw [Rule.items_run hrun, items]
  | statement hrun hrest ih => rw [Rule.items_semicolon hrun hp.1, ih hp.2, items]
  | stray hrun hrest ih => rw [Rule.items_close hrun, ih hp, items]
  | block hrun hlevel hclose hrest ih => rw [Rule.items_open hrun hp.1 hclose, ih hp.2, items]
  | group hrun hlevel hclose hbody hrest ihbody ih =>
    rw [Rule.items_open hrun hp.1 hclose, ih hp.2, items, hbody.text_eq]

end Sheet

end ScopedStyles
