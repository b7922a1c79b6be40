import ScopedStyles.Proofs.Text.Words

/-!
# Scans, part by part

What a reader makes of a text with several parts, where it is known what it makes of each part in
front of the others (`Reader.Scans`). A list of parts is then scanned one by one
(`Reader.scan_flatMap`).
-/

namespace ScopedStyles

namespace Text

variable {m : Letters} {w x u : Text} {c : Char}

/-- What cannot begin the literal belongs to the text before its first occurrence. -/
theorem cut_append_of_disagree {a : Char} (hx : ∀ c ∈ x, ¬ m.agree a c) (u : Text) :
    cut m (a :: w) (x ++ u) = (cut m (a :: w) u).map fun (before, rest) => (x ++ before, rest) := by
  induction x with
  | nil => simp
  | cons c x ih =>
    rw [List.forall_mem_cons] at hx
    have hnone : after? m (a :: w) (c :: (x ++ u)) = none := by simp [after?, hx.1]
    rw [List.cons_append, cut, hnone, ih hx.2]
    simp [Function.comp_def]

/-- A literal is cut out where it first stands. -/
theorem cut_append_of_after? {a : Char} (hx : ∀ c ∈ x, ¬ m.agree a c) {rest : Text}
    (h : after? m (a :: w) u = some rest) : cut m (a :: w) (x ++ u) = some (x, rest) := by
  obtain ⟨d, y, rfl, -, -⟩ := exists_of_after?_cons h
  rw [cut_append_of_disagree hx, cut, h]
  simp

theorem cut_append_cons (hx : c ∉ x) (u : Text) : cut .exact [c] (x ++ c :: u) = some (x, u) := by
  refine cut_append_of_after? (fun d hd hagree => hx ?_) (by simp [after?, Letters.agree])
  exact eq_of_beq hagree ▸ hd

/-- Behind a text without the literal, and a character that does not stand in it, the literal is cut
out as if it were looked for there. -/
theorem cut_append_cons_of_disagree (hw : w ≠ []) (hc : ∀ a ∈ w, ¬ m.agree a c)
    (hx : ¬ includes m w x) (u : Text) :
    cut m w (x ++ c :: u) = (cut m w u).map fun (before, rest) => (x ++ c :: before, rest) := by
  have hbars : Bars m w (c :: u) := bars_cons (fun a ha => hc a (List.mem_of_mem_tail ha)) u
  induction x with
  | nil =>
    rw [List.nil_append, cut, after?_cons_of_disagree hw hc]
    rfl
  | cons d x ih =>
    have hnone : after? m w (d :: (x ++ c :: u)) = none :=
      after?_append_eq_none (after?_eq_none_of_not_includes hx (List.suffix_refl _))
        (List.cons_ne_nil d x) hbars
    rw [List.cons_append, cut, hnone,
      ih (not_includes_of_isInfix (List.suffix_cons d x).isInfix hx)]
    simp [Function.comp_def]

theorem replaceFirst_of_not_includes (h : ¬ includes m w x) (new : Text) :
    replaceFirst m w new x = x := by
  have hnone : cut m w x = none := by simpa [includes] using h
  rw [replaceFirst, hnone]

theorem replaceFirst_append_cons (hw : w ≠ []) (hc : ∀ a ∈ w, ¬ m.agree a c)
    (hx : ¬ includes m w x) (new u : Text) :
    replaceFirst m w new (x ++ c :: u) = x ++ c :: replaceFirst m w new u := by
  rw [replaceFirst, replaceFirst, cut_append_cons_of_disagree hw hc hx]
  cases cut m w u with
  | none => rfl
  | some found => simp

theorem after?_append_of_bars (hu : Bars m w u) (hx : x ≠ []) :
    after? m w (x ++ u) = (after? m w x).map (· ++ u) := by
  cases hafter : after? m w x with
  | some rest => exact after?_append hafter u
  | none => exact after?_append_eq_none hafter hx hu

/-- What follows a text does not matter to a literal that does not stand there or reach into it. -/
theorem after?_append_eq_map (hu : Bars m w u) (hnone : after? m w u = none) (x : Text) :
    after? m w (x ++ u) = (after? m w x).map (· ++ u) := by
  cases x with
  | nil =>
    cases w with
    | nil => simp [after?] at hnone
    | cons a w => simpa [after?] using hnone
  | cons c x => exact after?_append_of_bars hu (List.cons_ne_nil c x)

theorem cut_append_eq_map (hu : Bars m w u) (hnone : ¬ includes m w u) (x : Text) :
    cut m w (x ++ u) = (cut m w x).map fun (before, rest) => (before, rest ++ u) := by
  cases hx : cut m w x with
  | some found => exact cut_append hx u
  | none =>
    have hincludes := includes_append_of_bars hu x
    rw [includes, includes, hx, Bool.eq_false_iff.mpr hnone] at hincludes
    simpa using hincludes

theorem bars_singleton (m : Letters) (c : Char) (u : Text) : Bars m [c] u := by
  intro v hv hne hnil
  rcases List.suffix_cons_iff.mp hv with rfl | hv
  · exact absurd rfl hne
  · exact absurd (List.suffix_nil.mp hv) hnil

theorem cut_singleton_append_eq_map (hu : c ∉ u) (x : Text) :
    cut .exact [c] (x ++ u) = (cut .exact [c] x).map fun (before, rest) => (before, rest ++ u) :=
  cut_append_eq_map (bars_singleton _ c u) (not_includes_of_not_mem List.mem_cons_self hu) x

theorem not_mem_of_blanks (hu : ∀ d ∈ u, isBlank d) (hc : ¬ isBlank c) : c ∉ u :=
  fun hmem => hc (hu c hmem)

theorem after?_append_of_blanks (hw : w ≠ [])
    (hletters : ∀ a ∈ w, ¬ isBlank a ∧ ¬ isBlank (foldCase a)) (hu : ∀ c ∈ u, isBlank c)
    (x : Text) : after? m w (x ++ u) = (after? m w x).map (· ++ u) := by
  cases u with
  | nil => simp
  | cons c u =>
    have hdivides : Divides [(m, w)] c :=
      divides_of_isBlank (List.forall_mem_singleton.mpr ⟨hw, hletters⟩) (hu c List.mem_cons_self)
    have hc := (hdivides _ List.mem_cons_self).2
    exact after?_append_eq_map (bars_cons (fun a ha => hc a (List.mem_of_mem_tail ha)) u)
      (after?_cons_of_disagree hw hc u) x

end Text

/-- A piece with what was found in it changed by `f`. -/
def Piece.map {α β : Type} (f : α → β) : Piece α → Piece β
  | .plain c => .plain c
  | .found a => .found (f a)

namespace Reader

open Text

variable {α β : Type} {R : Reader α} {m : Letters} {w x y u : Text} {c : Char}

theorem Passes.append (hx : R.Passes x (y ++ u)) (hy : R.Passes y u) : R.Passes (x ++ y) u := by
  rintro t ⟨p, hp⟩ hne
  -- an end of both texts begins in the first or in the second
  obtain ⟨s, hs, rfl⟩ | ⟨s, -, rfl⟩ := List.append_eq_append_iff.mp hp
  · by_cases hnil : s = []
    · subst hnil
      exact hy y (List.suffix_refl y) hne
    · rw [List.append_assoc]
      exact hx s ⟨p, hs.symm⟩ hnil
  · exact hy t ⟨s, rfl⟩ hne

/-- What does not hold the literal, and ends with a character that does not stand in it, is passed
over whatever follows. -/
theorem AwaitsLiteral.passes_append_singleton (hR : R.AwaitsLiteral m w) (hx : ¬ includes m w x)
    (hw : w ≠ []) (hc : ∀ a ∈ w, ¬ m.agree a c) (u : Text) : R.Passes (x ++ [c]) u := by
  have hbars : Bars m w (c :: u) := bars_cons (fun a ha => hc a (List.mem_of_mem_tail ha)) u
  refine (hR.passes hx hbars).append fun t ht hne => ?_
  obtain rfl : t = [c] := by
    rcases List.suffix_cons_iff.mp ht with rfl | hnil
    · rfl
    · exact absurd (List.suffix_nil.mp hnil) hne
  exact hR _ (after?_cons_of_disagree hw hc u)

/-! ## Pieces -/

/-- A piece with whatever is found replaced. -/
def writePiece (write : α → Text) : Piece α → Text
  | .plain c => [c]
  | .found a => write a

/-- What is found in a piece. -/
def foundIn : Piece α → List α
  | .plain _ => []
  | .found a => [a]

theorem substitute_eq_flatMap (R : Reader α) (write : α → Text) (t : Text) :
    R.substitute write t = (R.scan t).flatMap (writePiece write) := rfl

theorem found_eq_flatMap (R : Reader α) (t : Text) : R.found t = (R.scan t).flatMap foundIn := by
  rw [found]
  induction R.scan t with
  | nil => rfl
  | cons piece pieces ih =>
    rw [List.flatMap_cons, ← ih]
    cases piece <;> rfl

@[simp] theorem flatMap_writePiece_plain (write : α → Text) (t : Text) :
    (t.map .plain).flatMap (writePiece write) = t := by
  rw [List.flatMap_map]
  simp [writePiece]

@[simp] theorem flatMap_foundIn_plain (t : Text) :
    (t.map (.plain : Char → Piece α)).flatMap foundIn = [] := by
  simp [List.flatMap_map, foundIn]

/-- What finds the same in the same places, written in another way, cuts a text into the same
pieces. -/
theorem scan_map {S : Reader β} (f : α → β)
    (h : ∀ t, S.read t = (R.read t).map fun (a, rest) => (f a, rest)) (t : Text) :
    S.scan t = (R.scan t).map (Piece.map f) := by
  fun_induction R.scan t with
  | case1 => rw [scan_nil, List.map_nil]
  | case2 c t a rest hread ih =>
    have hread' : S.read (c :: t) = some (f a, rest) := by rw [h, hread, Option.map_some]
    rw [scan_of_read hread', ih, List.map_cons, Piece.map]
  | case3 c t hread ih =>
    have hread' : S.read (c :: t) = none := by rw [h, hread, Option.map_none]
    rw [scan_of_none hread', ih, List.map_cons, Piece.map]

theorem flatMap_writePiece_map (write : β → Text) (f : α → β) (pieces : List (Piece α)) :
    (pieces.map (Piece.map f)).flatMap (writePiece write) =
      pieces.flatMap (writePiece (write ∘ f)) := by
  rw [List.flatMap_map]
  congr 1
  funext piece
  cases piece <;> rfl

theorem found_append (hR : R.StopsBefore u) (x : Text) :
    R.found (x ++ u) = R.found x ++ R.found u := by
  simp [found, scan_append hR]

/-! ## Parts -/

/-- In front of `u` the text `x` is cut into these pieces. -/
def Scans (R : Reader α) (x u : Text) (pieces : List (Piece α)) : Prop :=
  R.scan (x ++ u) = pieces ++ R.scan u

variable {ps qs : List (Piece α)}

theorem Passes.scans (h : R.Passes x u) : R.Scans x u (x.map .plain) := h.scan_append

theorem scans_of_read {a : α} (h : R.read (x ++ u) = some (a, u)) : R.Scans x u [.found a] := by
  unfold Scans
  cases hxu : x ++ u with
  | nil =>
    rw [hxu, R.read_nil] at h
    cases h
  | cons c t =>
    rw [hxu] at h
    rw [scan_of_read h]
    rfl

theorem Scans.append (hx : R.Scans x (y ++ u) ps) (hy : R.Scans y u qs) :
    R.Scans (x ++ y) u (ps ++ qs) := by
  unfold Scans at *
  rw [List.append_assoc, hx, hy, List.append_assoc]

section

variable {text : β → Text} {pieces : β → List (Piece α)} {l : List β}

theorem scan_flatMap (h : ∀ b ∈ l, ∀ u, R.Scans (text b) u (pieces b)) :
    R.scan (l.flatMap text) = l.flatMap pieces := by
  induction l with
  | nil => simp
  | cons b l ih =>
    rw [List.forall_mem_cons] at h
    rw [List.flatMap_cons, h.1, ih h.2, List.flatMap_cons]

/-- Texts whose pieces do not depend on what follows are written one by one. -/
theorem substitute_flatMap (h : ∀ b ∈ l, ∀ u, R.Scans (text b) u (pieces b)) (write : α → Text) :
    R.substitute write (l.flatMap text) =
      l.flatMap fun b => (pieces b).flatMap (writePiece write) := by
  rw [substitute_eq_flatMap, scan_flatMap h, List.flatMap_assoc]

theorem found_flatMap (h : ∀ b ∈ l, ∀ u, R.Scans (text b) u (pieces b)) :
    R.found (l.flatMap text) = l.flatMap fun b => (pieces b).flatMap foundIn := by
  rw [found_eq_flatMap, scan_flatMap h, List.flatMap_assoc]

theorem substitute_flatMap_of_passes (h : ∀ b ∈ l, ∀ u, R.Passes (text b) u) (write : α → Text) :
    R.substitute write (l.flatMap text) = l.flatMap text := by
  rw [substitute_flatMap fun b hb u => (h b hb u).scans]
  simp

end

end Reader

end ScopedStyles
