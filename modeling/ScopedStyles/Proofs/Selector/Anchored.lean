import ScopedStyles.Proofs.Host.Named
import ScopedStyles.Proofs.Selector.Pieces

/-!
# Selectors with an anchor

In strict mode the anchor divides a complex selector in two. What stands before it matches elements
outside the component and is left alone, but for its spacing; every compound selector behind it is
scoped (`Scope.strictly_link`, `Scope.strictly_last`).
-/

namespace ScopedStyles

open Text Host

/-! ## Anchors in texts -/

namespace Host

theorem includes_anchor (x y : Text) : includes .exact anchor (x ++ (anchor ++ y)) :=
  includes_iff.mpr ⟨x, anchor ++ y, rfl, by rw [after?_append_self]; rfl⟩

/-- An anchor has a marker of `:host` in it. -/
theorem not_includes_anchor {t : Text} (h : ¬ includes .anyCase marker t) :
    ¬ includes .exact anchor t :=
  fun hanchor => h (includes_of_includes_append (includes_anyCase hanchor))

/-- The ends of an anchor are not blank. -/
theorem trim_append_anchor (x y : Text) :
    trim (x ++ (anchor ++ y)) = trimStart x ++ (anchor ++ trimEnd y) := by
  have hanchor : anchor = '-' :: ("shadowcsshost-no-combinato".toList ++ ['r']) := rfl
  rw [hanchor, List.cons_append, trim_append_cons (by decide), List.append_assoc,
    List.singleton_append, trimEnd_append_cons (by decide)]
  simp

end Host

/-! ## Chains -/

namespace Selector

theorem not_isCombinator_of_mem_last {t : Text} : ∀ d ∈ (chain t).last, ¬ isCombinator d := by
  induction t using chain_induction with
  | run k hk => rwa [chain_of_run hk]
  | link k c t hk hc ih => rwa [chain_append_cons hk hc]

/-- A chain goes on in its last compound selector, unless a blank comes next. -/
theorem chain_append {c : Char} (hc : ¬ isBlank c) (x u : Text) :
    chain (x ++ c :: u) =
      ⟨(chain x).links ++ (chain ((chain x).last ++ c :: u)).links,
        (chain ((chain x).last ++ c :: u)).last⟩ := by
  induction x using chain_induction with
  | run k hk => rw [chain_of_run hk, List.nil_append]
  | link k d t hk hd ih =>
    rw [List.append_assoc, List.cons_append, chain_append_cons hk hd, trimStart_append_cons hc, ih,
      chain_append_cons hk hd]
    rfl

/-! ## Deep combinators -/

/-- The combinators that leave the component. -/
def deep : List (Letters × Text) := [(.exact, ">>>".toList), (.exact, "/deep/".toList)]

theorem read_deepReader {t : Text} (h : ∀ w ∈ deep, after? w.1 w.2 t = none) :
    deepReader.read t = none := by
  simp only [deep, List.forall_mem_cons] at h
  obtain ⟨hangles, hdeep, -⟩ := h
  simp only [deepReader, afterDeep?, hangles, hdeep, Option.map_none]

theorem passes_deepReader {x u : Text} (hx : Lacks deep x) (hu : ∀ w ∈ deep, Bars w.1 w.2 u) :
    deepReader.Passes x u := fun _ ht hne => read_deepReader fun w hw =>
  after?_append_eq_none (after?_eq_none_of_not_includes (hx w hw) ht) hne (hu w hw)

theorem between_of_lacks {x : Text} (hx : Lacks deep x) : deepReader.between x = (x, []) := by
  have h := (passes_deepReader hx fun _ _ => bars_nil).between_append
  rwa [List.append_nil, Reader.between_nil, List.append_nil] at h

/-- No deep combinator stands in an anchor or across one of its ends. -/
theorem between_append_anchor {x : Text} (hx : Lacks deep x) (y : Text) :
    deepReader.between (x ++ (anchor ++ y)) =
      (x ++ (anchor ++ (deepReader.between y).1), (deepReader.between y).2) := by
  have hanchor : ∀ w ∈ deep, Repels w.1 w.2 anchor ∧ Shuts w.1 w.2 anchor := by decide +kernel
  have hpasses : deepReader.Passes anchor y := fun t ht hne => read_deepReader fun w hw =>
    after?_append_of_clashes ((hanchor w hw).2 t ht hne) y
  rw [(passes_deepReader hx fun w hw => (hanchor w hw).1.bars y).between_append,
    hpasses.between_append]

/-! ## Selectors that are scoped already -/

theorem afterBreaks_append (x u : Text) :
    fromLineStarts.afterBreaks (x ++ u) =
      (fromLineStarts.afterBreaks x).map (· ++ u) ++ fromLineStarts.afterBreaks u := by
  induction x with
  | nil => rfl
  | cons c x ih =>
    simp only [List.cons_append, fromLineStarts.afterBreaks]
    split <;> simp [ih]

theorem afterBreaks_eq_nil {t : Text} (h : '\n' ∉ t) : fromLineStarts.afterBreaks t = [] := by
  induction t with
  | nil => rfl
  | cons c t ih =>
    rw [List.mem_cons, not_or] at h
    rw [fromLineStarts.afterBreaks, if_neg (Ne.symm h.1), ih h.2]

/-- A scope that is not named in a text before an anchor is not named by it and the anchor. -/
theorem not_beginsWith_append_anchor {scope l : Text} (hscope : ¬ includes .exact anchor scope)
    (hl : ∀ c rest, l = scope ++ c :: rest → ¬ isBoundary c) (y : Text) :
    ¬ beginsWith scope (l ++ (anchor ++ y)) := by
  have hanchor : ∀ c ∈ anchor, ¬ isBoundary c := by decide +kernel
  intro h
  unfold beginsWith at h
  split at h
  · rename_i hafter
    rw [after?_exact, List.append_nil] at hafter
    exact hscope (hafter ▸ includes_anchor l y)
  · rename_i c rest hafter
    -- where the scope ends: behind the anchor, in it, at its beginning, or before it
    rcases List.append_eq_append_iff.mp (after?_exact.mp hafter) with
      ⟨z, rfl, hz⟩ | ⟨z, rfl, hz⟩
    · rcases List.append_eq_append_iff.mp hz with ⟨z', rfl, -⟩ | ⟨z', hz', hrest⟩
      · exact hscope (includes_anchor l z')
      · cases z' with
        | nil =>
          rw [List.append_nil] at hz'
          have hincludes := includes_anchor l []
          rw [List.append_nil] at hincludes
          rw [← hz'] at hscope
          exact hscope hincludes
        | cons d z' =>
          obtain ⟨rfl, -⟩ := List.cons.inj hrest
          exact hanchor c (hz' ▸ List.mem_append_right z List.mem_cons_self) h
    · cases z with
      | nil =>
        obtain ⟨rfl, -⟩ := List.cons.inj hz
        exact absurd h (by decide)
      | cons d z =>
        obtain ⟨rfl, -⟩ := List.cons.inj hz
        exact hl c z rfl h
  · exact absurd h Bool.false_ne_true

/-- A selector with an anchor is scoped already only where a line of one of its sides is. -/
theorem not_isScoped_append_anchor {scope x y : Text} (hscope : ¬ includes .exact anchor scope)
    (hx : ∀ l ∈ fromLineStarts x, ∀ c rest, l = scope ++ c :: rest → ¬ isBoundary c)
    (hy : ∀ l ∈ fromLineStarts.afterBreaks y, ¬ beginsWith scope l) :
    ¬ isScoped scope (x ++ (anchor ++ y)) := by
  have hbreaks : fromLineStarts.afterBreaks (anchor ++ y) = fromLineStarts.afterBreaks y := by
    rw [afterBreaks_append, afterBreaks_eq_nil (by decide), List.map_nil, List.nil_append]
  have hlines : ∀ l ∈ fromLineStarts (x ++ (anchor ++ y)), ¬ beginsWith scope l := by
    intro l hl
    rw [fromLineStarts, afterBreaks_append, hbreaks, ← List.cons_append, List.mem_append] at hl
    rcases hl with hl | hl
    · have hmap : l ∈ (fromLineStarts x).map (· ++ (anchor ++ y)) := hl
      obtain ⟨l', hl', rfl⟩ := List.mem_map.mp hmap
      exact not_beginsWith_append_anchor hscope (hx l' hl') y
    · exact hy l hl
  simpa [isScoped] using hlines

end Selector

/-! ## Scoping in strict mode -/

namespace Scope

open Selector

variable {s : Scope} {t x y : Text} {c : Char}

/-- The links of a chain, one space on each side of every combinator. -/
def spaced (chained : List (Text × Char)) : Text :=
  chained.flatMap fun (t, combinator) => trim t ++ [' ', combinator, ' ']

/-- A selector whose compound selectors are all inside the component. -/
def inside (s : Scope) (t : Text) : Text :=
  s.links true (chain t).links ++ s.compound (chain t).last

theorem inside_of_run (ht : ∀ d ∈ t, ¬ isCombinator d) : s.inside t = s.compound t := by
  rw [inside, chain_of_run ht]
  rfl

theorem inside_append_cons (hx : ∀ d ∈ x, ¬ isCombinator d) (hc : isCombinator c) (t : Text) :
    s.inside (x ++ c :: t) =
      s.compound (trim x) ++ ([' ', c, ' '] ++ s.inside (trimStart t)) := by
  rw [inside, chain_append_cons hx hc, links, inside]
  simp

theorem inside_cons (hc : isCombinator c) (t : Text) :
    s.inside (c :: t) = [' ', c, ' '] ++ s.inside (trimStart t) := by
  have hnil : ∀ e ∈ ([] : Text), ¬ isCombinator e := fun e he => absurd he List.not_mem_nil
  have h := @inside_append_cons s [] c hnil hc t
  rwa [List.nil_append] at h

/-- Without an anchor everything is inside the component. -/
theorem strictly_of_not_includes (h : ¬ includes .exact anchor t) : s.strictly t = s.inside t := by
  simp [strictly, inside, h]

/-- Links without an anchor are left alone as long as the host element is not reached. -/
theorem links_append {chained : List (Text × Char)}
    (h : ∀ link ∈ chained, ¬ includes .exact anchor link.1) (rest : List (Text × Char)) :
    s.links false (chained ++ rest) = spaced chained ++ s.links false rest := by
  induction chained with
  | nil => rfl
  | cons link chained ih =>
    obtain ⟨k, d⟩ := link
    rw [List.forall_mem_cons] at h
    have hbegins : ¬ anchor.isPrefixOf k := by
      rw [List.isPrefixOf_iff_prefix]
      rintro ⟨u, rfl⟩
      exact h.1 (includes_anchor [] u)
    have hincludes : includes .exact anchor k = false := by simpa using h.1
    rw [List.cons_append, links]
    simp [hbegins, hincludes, ih h.2, spaced]

/-- Without a marker a compound selector gets the content attribute. -/
theorem compound_of_not_includes (hne : trim t ≠ []) (h : ¬ includes .anyCase marker t) :
    s.compound t = insertAttribute s.contentAttribute t := by
  have hnil : t ≠ [] := by
    rintro rfl
    exact hne rfl
  rw [compound, if_neg hne, if_neg (not_includes_anchor h), replace_of_not_includes h]
  split
  · exact absurd rfl hnil
  · rfl

/-- The anchor is written out where it stands. -/
theorem writeHost_anchor (hx : ¬ includes .anyCase marker x)
    (h : ¬ includes .anyCase marker (x ++ (s.hostText ++ y))) :
    s.writeHost (x ++ (anchor ++ y)) = x ++ (s.hostText ++ y) := by
  have hrepels : Repels .exact anchor anchor := by decide +kernel
  rw [writeHost, replaceFirst_append_of_bars (not_includes_anchor hx) (hrepels.bars y)
      (after?_append_self .exact anchor y),
    List.append_assoc, replace_of_not_includes h]

theorem compound_anchor (hx : ¬ includes .anyCase marker x)
    (h : ¬ includes .anyCase marker (x ++ (s.hostText ++ y))) :
    s.compound (x ++ (anchor ++ y)) = x ++ (s.hostText ++ y) := by
  have htrim : trim (x ++ (anchor ++ y)) ≠ [] := by
    have hne : anchor ≠ [] := by decide
    rw [trim_append_anchor]
    simp [hne]
  rw [compound, if_neg htrim, if_pos (includes_anchor x y), writeHost_anchor hx h]

theorem strictly_append_anchor (hx : ¬ includes .anyCase marker x) (y : Text) :
    s.strictly (x ++ (anchor ++ y)) =
      spaced (chain x).links ++
        (s.links false (chain ((chain x).last ++ (anchor ++ y))).links ++
          s.compound (chain ((chain x).last ++ (anchor ++ y))).last) := by
  have hlinks : ∀ link ∈ (chain x).links, ¬ includes .exact anchor link.1 := fun link hlink =>
    not_includes_anchor (not_includes_of_isInfix ((infix_of_mem_links x).1 link hlink).1 hx)
  have hanchor : anchor ++ y = '-' :: ("shadowcsshost-no-combinator".toList ++ y) := rfl
  have hincludes := includes_anchor x y
  rw [hanchor] at hincludes ⊢
  rw [strictly, hincludes, chain_append (by decide), Bool.not_true, links_append hlinks,
    List.append_assoc]

theorem not_isCombinator_anchor_append (hy : ∀ d ∈ y, ¬ isCombinator d) :
    ∀ d ∈ anchor ++ y, ¬ isCombinator d := by
  have hanchor : ∀ d ∈ anchor, ¬ isCombinator d := by decide
  exact List.forall_mem_append.mpr ⟨hanchor, hy⟩

/-- The compound selector with the anchor is the last one. -/
theorem strictly_last (hx : ¬ includes .anyCase marker x) (hy : ∀ d ∈ y, ¬ isCombinator d) :
    s.strictly (x ++ (anchor ++ y)) =
      spaced (chain x).links ++ s.compound ((chain x).last ++ (anchor ++ y)) := by
  have hrun : ∀ d ∈ (chain x).last ++ (anchor ++ y), ¬ isCombinator d :=
    List.forall_mem_append.mpr ⟨not_isCombinator_of_mem_last, not_isCombinator_anchor_append hy⟩
  rw [strictly_append_anchor hx, chain_of_run hrun]
  rfl

/-- The anchor begins its compound selector, and a combinator follows. -/
theorem strictly_link (hx : ¬ includes .anyCase marker x) (hlast : (chain x).last = [])
    (hy : ∀ d ∈ y, ¬ isCombinator d) (hc : isCombinator c) (t : Text) :
    s.strictly (x ++ (anchor ++ (y ++ c :: t))) =
      spaced (chain x).links ++
        (s.compound (anchor ++ trimEnd y) ++ ([' ', c, ' '] ++ s.inside (trimStart t))) := by
  have hbegins : anchor.isPrefixOf (anchor ++ y) :=
    List.isPrefixOf_iff_prefix.mpr (List.prefix_append anchor y)
  have htrim : trim (anchor ++ y) = anchor ++ trimEnd y := trim_append_anchor [] y
  rw [strictly_append_anchor hx, hlast, List.nil_append, ← List.append_assoc anchor,
    chain_append_cons (not_isCombinator_anchor_append hy) hc, links, hbegins, htrim, inside]
  simp

/-! ## Alternatives -/

/-- The deep combinators of an alternative stand behind its anchor. -/
theorem alternative_append_anchor (hx : Lacks deep (trimStart x)) (y : Text) :
    s.alternative (x ++ (anchor ++ y)) =
      [' '].intercalate
        (s.shallow (trimStart x ++ (anchor ++ (deepReader.between (trimEnd y)).1)) ::
          (deepReader.between (trimEnd y)).2) := by
  rw [alternative, trim_append_anchor, between_append_anchor hx]

end Scope

end ScopedStyles
