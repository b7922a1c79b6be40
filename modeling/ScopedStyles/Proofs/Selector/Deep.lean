import ScopedStyles.Proofs.Selector.Anchored

/-!
# Deep combinators

A selector is cut at its deep combinators, from left to right: no piece has one in it
(`Selector.lacks_between`), the last piece ends the selector (`Selector.exists_last_between`), and
the first deep combinator of a selector is where the part inside the component ends
(`Selector.between_append_deep`).
-/

namespace ScopedStyles

open Text

namespace Selector

variable {p q t x : Text}

/-! ## One deep combinator -/

theorem after?_of_read_deepReader (h : deepReader.read t = none) :
    ∀ w ∈ deep, after? w.1 w.2 t = none := by
  simp only [deepReader, afterDeep?, Option.map_eq_none_iff] at h
  split at h
  · cases h
  · rename_i hangles
    exact List.forall_mem_cons.mpr ⟨hangles, List.forall_mem_singleton.mpr h⟩

theorem exists_of_read_deepReader {a : Unit} {rest : Text}
    (h : deepReader.read t = some (a, rest)) : ∃ w ∈ deep, t = w.2 ++ rest := by
  simp only [deepReader, afterDeep?, Option.map_eq_some_iff, Prod.mk.injEq] at h
  obtain ⟨r, hr, -, rfl⟩ := h
  split at hr
  · rename_i hangles
    obtain rfl := Option.some.inj hr
    exact ⟨_, List.mem_cons_self, after?_exact.mp hangles⟩
  · exact ⟨_, List.mem_cons_of_mem _ List.mem_cons_self, after?_exact.mp hr⟩

/-! ## Pieces -/

/-- No deep combinator is left between deep combinators. -/
theorem lacks_between (x : Text) :
    Lacks deep (deepReader.between x).1 ∧ ∀ t ∈ (deepReader.between x).2, Lacks deep t := by
  have hnil : Lacks deep [] := by decide
  fun_induction deepReader.scan x with
  | case1 => simpa using hnil
  | case2 c x a rest hread ih =>
    rw [Reader.between_of_read hread]
    exact ⟨hnil, List.forall_mem_cons.mpr ih⟩
  | case3 c x hread ih =>
    obtain ⟨rest, hrest⟩ := (Reader.between_isInfix leavesSuffix_deepReader x).1
    rw [Reader.between_of_none hread]
    refine ⟨fun w hw => ?_, ih.2⟩
    -- what does not stand at the head of the text does not stand at the head of its first piece
    have hnone : after? w.1 w.2 (c :: (deepReader.between x).1) = none := by
      rw [Option.eq_none_iff_forall_not_mem]
      intro u hu
      have hwhole := after?_append hu rest
      rw [List.cons_append, hrest, after?_of_read_deepReader hread w hw] at hwhole
      cases hwhole
    rw [includes_cons, hnone]
    simpa using ih.1 w hw

/-- What stands behind the last deep combinator ends the text. -/
theorem exists_last_between (x : Text) :
    deepReader.between x = (x, []) ∨
      ∃ init last p, (deepReader.between x).2 = init ++ [last] ∧
        ∃ w ∈ deep, x = p ++ (w.2 ++ last) := by
  fun_induction deepReader.scan x with
  | case1 => exact .inl (Reader.between_nil _)
  | case2 c x a rest hread ih =>
    obtain ⟨w, hw, hx⟩ := exists_of_read_deepReader hread
    rw [Reader.between_of_read hread]
    refine .inr ?_
    rcases ih with hrest | ⟨init, last, p, hothers, v, hv, hrest⟩
    · rw [hrest]
      exact ⟨[], rest, [], rfl, w, hw, hx⟩
    · exact ⟨(deepReader.between rest).1 :: init, last, w.2 ++ p, by rw [hothers]; rfl, v, hv,
        by rw [hx, hrest]; simp⟩
  | case3 c x hread ih =>
    rw [Reader.between_of_none hread]
    rcases ih with hx | ⟨init, last, p, hothers, w, hw, hx⟩
    · rw [hx]
      exact .inl rfl
    · exact .inr ⟨init, last, c :: p, hothers, w, hw, by rw [hx]; rfl⟩

/-! ## The first deep combinator -/

theorem eq_exact_of_mem_deep {w : Letters × Text} (hw : w ∈ deep) : w.1 = .exact := by
  simp only [deep, List.mem_cons, List.not_mem_nil, or_false] at hw
  rcases hw with rfl | rfl <;> rfl

/-- A deep combinator before which there is none is not read before it stands. -/
theorem passes_append_deep {w : Letters × Text} (hw : w ∈ deep)
    (hp : Lacks deep (p ++ w.2.dropLast)) (q : Text) : deepReader.Passes p (w.2 ++ q) := by
  have hlater : ∀ v ∈ deep, ∀ w ∈ deep, ¬ w.2 <:+: v.2.tail := by decide +kernel
  intro t ht hne
  refine read_deepReader fun v hv => ?_
  rw [Option.eq_none_iff_forall_not_mem]
  intro rest hrest
  -- a combinator that begins in `p` would stand before the last character of this one
  have hnot : ¬ v.2 <:+: p ++ w.2.dropLast := by
    rintro ⟨x, y, hxy⟩
    have hself := after?_append_self v.1 v.2 y
    refine hp v hv (includes_iff.mpr ⟨x, v.2 ++ y, by rw [← hxy, List.append_assoc], ?_⟩)
    rw [hself]
    rfl
  have heq : t ++ (w.2 ++ q) = v.2 ++ rest := by
    rw [Option.mem_def, eq_exact_of_mem_deep hv] at hrest
    exact after?_exact.mp hrest
  rcases List.append_eq_append_iff.mp heq with ⟨z, hv', hz⟩ | ⟨z, rfl, -⟩
  · have hacross : ∀ y, v.2 = t ++ (w.2 ++ y) → False := by
      intro y hy
      obtain ⟨c, t, rfl⟩ := List.exists_cons_of_ne_nil hne
      exact hlater v hv w hw ⟨t, y, by rw [hy]; simp⟩
    rcases List.append_eq_append_iff.mp hz with ⟨y, rfl, -⟩ | ⟨y, hy, -⟩
    · exact hacross y hv'
    · rcases List.eq_nil_or_concat y with rfl | ⟨y, d, rfl⟩
      · exact hacross [] (by rw [hv', hy]; simp)
      · obtain ⟨x, rfl⟩ := ht
        have hdrop : w.2.dropLast = z ++ y := by
          rw [hy, List.concat_eq_append, ← List.append_assoc, List.dropLast_concat]
        exact hnot ⟨x, y, by rw [hdrop, hv']; simp⟩
  · exact hnot ((List.prefix_append v.2 z).isInfix.trans
      (ht.isInfix.trans (List.prefix_append p _).isInfix))

/-- A selector ends its part inside the component at its first deep combinator. -/
theorem between_append_deep {w : Letters × Text} (hw : w ∈ deep)
    (hp : Lacks deep (p ++ w.2.dropLast)) (hq : Lacks deep q) :
    deepReader.between (p ++ (w.2 ++ q)) = (p, [q]) := by
  have hread : deepReader.read (w.2 ++ q) = some ((), q) := by
    simp only [deep, List.mem_cons, List.not_mem_nil, or_false] at hw
    rcases hw with rfl | rfl
    · simp only [deepReader, afterDeep?, after?_append_self]
      rfl
    · have hangles : after? .exact ">>>".toList ("/deep/".toList ++ q) = none := rfl
      simp only [deepReader, afterDeep?, hangles, after?_append_self]
      rfl
  have hne : w.2 ≠ [] := by
    have hall : ∀ w ∈ deep, w.2 ≠ [] := by decide
    exact hall w hw
  obtain ⟨c, u, hu⟩ := List.exists_cons_of_ne_nil hne
  have hdeep : deepReader.between (w.2 ++ q) = ([], [q]) := by
    rw [hu, List.cons_append] at hread ⊢
    rw [Reader.between_of_read hread, between_of_lacks hq]
  rw [(passes_append_deep hw hp q).between_append, hdeep, List.append_nil]

/-! ## Alternatives -/

/-- The part of an alternative inside the component. -/
def innerPart (a : Text) : Text := (deepReader.between (trim a)).1

/-- The parts of an alternative behind its deep combinators. -/
def outerParts (a : Text) : List Text := (deepReader.between (trim a)).2

theorem innerPart_isPrefix_trim (a : Text) : innerPart a <+: trim a :=
  (Reader.between_isInfix leavesSuffix_deepReader (trim a)).1

theorem innerPart_isInfix (a : Text) : innerPart a <:+: a :=
  (innerPart_isPrefix_trim a).isInfix.trans (trim_isInfix a)

theorem not_includes_innerPart {m : Letters} {w a : Text} (h : ¬ includes m w a) :
    ¬ includes m w (innerPart a) := not_includes_of_isInfix (innerPart_isInfix a) h

theorem outerParts_isInfix {a t : Text} (h : t ∈ outerParts a) : t <:+: a :=
  ((Reader.between_isInfix leavesSuffix_deepReader (trim a)).2 t h).trans (trim_isInfix a)

end Selector

namespace Scope

open Selector

variable {s : Scope} {t : Text}

theorem shallow_strict (hmode : s.mode = .strict) (h : ¬ includes .anyCase Host.marker t) :
    s.shallow t = if isScoped s.content t then t else s.inside t := by
  rw [shallow, hmode]
  simp only [strictly_of_not_includes (Host.not_includes_anchor h)]

theorem shallow_loose (hmode : s.mode = .loose) (h : ¬ includes .anyCase Host.marker t) :
    s.shallow t = if isScoped s.content t then t else s.content ++ ' ' :: t := by
  rw [shallow, hmode]
  simp only [loosely, if_neg h, List.append_assoc, List.singleton_append]

theorem alternative_eq_intercalate (s : Scope) (a : Text) :
    s.alternative a = [' '].intercalate (s.shallow (innerPart a) :: outerParts a) := rfl

/-- A scoped alternative begins with its part inside the component, and a space follows that, or
nothing. -/
theorem exists_alternative_eq (s : Scope) (a : Text) :
    ∃ tail, s.alternative a = s.shallow (innerPart a) ++ tail ∧
      (tail = [] ∨ ∃ u, tail = ' ' :: u) := by
  rw [alternative_eq_intercalate]
  cases outerParts a with
  | nil => exact ⟨[], by simp, .inl rfl⟩
  | cons t parts =>
    refine ⟨' ' :: [' '].intercalate (t :: parts), ?_, .inr ⟨_, rfl⟩⟩
    simp [List.intercalate_cons_cons]

end Scope

end ScopedStyles
