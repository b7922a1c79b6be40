import ScopedStyles.Proofs.Selector.Anchored

/-!
# The spacing of selectors

Scoping in strict mode puts one space on each side of every combinator, so that three stand for one.
`squeeze` writes a selector with as few blanks as it needs, and `Alike` compares two of them by
that. Up to spacing, a selector is scoped by putting the content attribute into each of its compound
selectors (`Scope.inside_alike`).
-/

namespace ScopedStyles

open Text

namespace Selector

variable {b b' x x' y y' u : Text} {c : Char}

/-! ## As few blanks as possible -/

/-- Whether a character is a combinator other than a space. -/
def isSign (c : Char) : Bool := c == '>' || c == '+' || c == '~'

/-- A text with a space before it, unless it is empty or begins with a combinator. -/
def spaceBefore : Text → Text
  | [] => []
  | c :: t => if isCombinator c then c :: t else ' ' :: c :: t

/-- A text with one space for each run of blanks, and none beside a combinator or at the end. -/
def squeeze : Text → Text
  | [] => []
  | c :: t =>
    if isBlank c then spaceBefore (squeeze t)
    else if isSign c then c :: trimStart (squeeze t)
    else c :: squeeze t

/-- Whatever follows, the two texts differ in their spacing only. -/
def Alike (x y : Text) : Prop := ∀ u, squeeze (x ++ u) = squeeze (y ++ u)

theorem isCombinator_iff : isCombinator c ↔ c = ' ' ∨ isSign c := by
  simp [isCombinator, isSign, or_assoc]

theorem not_isBlank_of_isSign (hc : isSign c) : ¬ isBlank c := by
  simp only [isSign, Bool.or_eq_true, beq_iff_eq] at hc
  rcases hc with (rfl | rfl) | rfl <;> decide

theorem spaceBefore_spaceBefore (t : Text) : spaceBefore (spaceBefore t) = spaceBefore t := by
  cases t with
  | nil => rfl
  | cons c t =>
    have hspace : isCombinator ' ' := by decide
    by_cases hc : isCombinator c
    · simp [spaceBefore, hc]
    · simp [spaceBefore, hc, hspace]

theorem trimStart_spaceBefore (t : Text) : trimStart (spaceBefore t) = trimStart t := by
  cases t with
  | nil => rfl
  | cons c t =>
    simp only [spaceBefore]
    split
    · rfl
    · rfl

theorem squeeze_append (h : squeeze y = squeeze y') (x : Text) :
    squeeze (x ++ y) = squeeze (x ++ y') := by
  induction x with
  | nil => exact h
  | cons c x ih => rw [List.cons_append, List.cons_append, squeeze, squeeze, ih]

/-- A run of blanks is a space. -/
theorem squeeze_blanks (hb : ∀ c ∈ b, isBlank c) (hne : b ≠ []) (u : Text) :
    squeeze (b ++ u) = spaceBefore (squeeze u) := by
  induction b with
  | nil => exact absurd rfl hne
  | cons c b ih =>
    rw [List.forall_mem_cons] at hb
    rw [List.cons_append, squeeze, if_pos hb.1]
    cases b with
    | nil => rfl
    | cons d b => rw [ih hb.2 (List.cons_ne_nil d b), spaceBefore_spaceBefore]

/-! ## Texts that differ in their spacing -/

/-- Blanks at the beginning come to a space at the beginning. -/
theorem squeeze_trimStart (x : Text) : squeeze (trimStart x) = trimStart (squeeze x) := by
  induction x with
  | nil => rfl
  | cons c x ih =>
    by_cases hc : isBlank c
    · rw [squeeze, if_pos hc, trimStart_spaceBefore, ← ih, trimStart, trimStart,
        List.dropWhile_cons_of_pos hc]
    · rw [trimStart_cons hc, squeeze, if_neg hc]
      split <;> rw [trimStart_cons hc]

namespace Alike

theorem refl (x : Text) : Alike x x := fun _ => rfl

theorem symm (h : Alike x y) : Alike y x := fun u => (h u).symm

theorem trans (h : Alike x y) (h' : Alike y u) : Alike x u := fun t => (h t).trans (h' t)

theorem append (hx : Alike x x') (hy : Alike y y') : Alike (x ++ y) (x' ++ y') := by
  intro u
  rw [List.append_assoc, List.append_assoc, hx]
  exact squeeze_append (hy u) x'

theorem squeeze_eq (h : Alike x y) : squeeze x = squeeze y := by
  have := h []
  rwa [List.append_nil, List.append_nil] at this

theorem intercalate (separator : Text) {pieces pieces' : List Text}
    (h : List.Forall₂ Alike pieces pieces') :
    Alike (separator.intercalate pieces) (separator.intercalate pieces') := by
  induction h with
  | nil => exact refl _
  | cons hp hrest ih =>
    cases hrest with
    | nil => simpa using hp
    | cons hq hrest =>
      rw [List.intercalate_cons_cons, List.intercalate_cons_cons]
      exact (hp.append (refl _)).append ih

end Alike

/-- Blanks beside a combinator do not matter. -/
theorem alike_combinator (hc : isCombinator c) (hb : ∀ d ∈ b, isBlank d)
    (hb' : ∀ d ∈ b', isBlank d) : Alike (b ++ c :: b') [c] := by
  intro u
  rw [List.append_assoc, List.cons_append, List.singleton_append]
  rcases isCombinator_iff.mp hc with rfl | hsign
  · have hspace : isBlank ' ' := by decide
    have hall : ∀ d ∈ b ++ ' ' :: b', isBlank d := by
      simp only [List.mem_append, List.mem_cons]
      rintro d (hd | rfl | hd)
      · exact hb d hd
      · exact hspace
      · exact hb' d hd
    have hone := squeeze_blanks hall (by simp) u
    rw [List.append_assoc, List.cons_append] at hone
    rw [hone, squeeze, if_pos hspace]
  · -- a sign drops the blanks behind it, and takes no space before it
    have hbehind : squeeze (c :: (b' ++ u)) = squeeze (c :: u) := by
      have hblank := not_isBlank_of_isSign hsign
      rw [squeeze, squeeze, if_neg hblank, if_neg hblank, if_pos hsign, if_pos hsign]
      cases b' with
      | nil => rfl
      | cons d b' => rw [squeeze_blanks hb' (List.cons_ne_nil d b'), trimStart_spaceBefore]
    cases b with
    | nil => exact hbehind
    | cons d b =>
      rw [squeeze_blanks hb (List.cons_ne_nil d b), hbehind, squeeze,
        if_neg (not_isBlank_of_isSign hsign), if_pos hsign, spaceBefore, if_pos hc]

/-! ## Attributes in every compound selector -/

/-- A complex selector with every compound selector changed. -/
def eachCompound (f : Text → Text) (t : Text) : Text :=
  match _h : t.dropWhile (!isCombinator ·) with
  | [] => f t
  | c :: rest => f (t.takeWhile (!isCombinator ·)) ++ c :: eachCompound f rest
termination_by t.length
decreasing_by
  have hlen := (List.dropWhile_suffix (l := t) (!isCombinator ·)).length_le
  rw [_h] at hlen
  simp only [List.length_cons] at hlen
  omega

/-- A compound selector with `added` put into it, and the blanks around it. -/
def place (added t : Text) : Text :=
  match trimStart t with
  | [] => t
  | inner => t.takeWhile isBlank ++ (insertAttribute added (trimEnd inner) ++ blanksAtEnd inner)

theorem eachCompound_of_run (f : Text → Text) (hx : ∀ d ∈ x, ¬ isCombinator d) :
    eachCompound f x = f x := by
  rw [eachCompound]
  split
  · rfl
  · rename_i c rest hc
    rw [dropWhile_of_run hx] at hc
    cases hc

theorem eachCompound_append_cons (f : Text → Text) (hx : ∀ d ∈ x, ¬ isCombinator d)
    (hc : isCombinator c) (u : Text) :
    eachCompound f (x ++ c :: u) = f x ++ c :: eachCompound f u := by
  obtain ⟨htake, hdrop⟩ := span_append_cons hx hc u
  rw [eachCompound]
  split
  · rename_i hnil
    rw [hdrop] at hnil
    cases hnil
  · rename_i d rest hd
    obtain ⟨rfl, rfl⟩ := List.cons.inj (hd.symm.trans hdrop)
    rw [htake]

theorem place_append_of_blanks (added : Text) (hb : ∀ c ∈ b, isBlank c) (x : Text) :
    place added (b ++ x) = b ++ place added x := by
  unfold place
  rw [trimStart_append_of_blanks hb, List.takeWhile_append_of_pos hb]
  split
  · rfl
  · rw [List.append_assoc]

/-- Blanks before a selector stay there. -/
theorem eachCompound_append_of_blanks (added : Text) (hb : ∀ c ∈ b, isBlank c) (x : Text) :
    eachCompound (place added) (b ++ x) = b ++ eachCompound (place added) x := by
  have hcons : ∀ d, isBlank d → ∀ y,
      eachCompound (place added) (d :: y) = d :: eachCompound (place added) y := by
    intro d hd y
    -- a space is a combinator too, and has an empty compound selector before it
    by_cases hcombinator : isCombinator d
    · have hnil : ∀ d ∈ ([] : Text), ¬ isCombinator d := fun d h => absurd h List.not_mem_nil
      exact eachCompound_append_cons _ hnil hcombinator y
    · have hplace : ∀ k, place added (d :: k) = d :: place added k :=
        place_append_of_blanks added (List.forall_mem_singleton.mpr hd)
      induction y using chain_induction with
      | run k hk =>
        rw [eachCompound_of_run _ (List.forall_mem_cons.mpr ⟨hcombinator, hk⟩),
          eachCompound_of_run _ hk, hplace]
      | link k c t hk hc _ =>
        rw [← List.cons_append,
          eachCompound_append_cons _ (List.forall_mem_cons.mpr ⟨hcombinator, hk⟩) hc,
          eachCompound_append_cons _ hk hc, hplace, List.cons_append]
  induction b with
  | nil => rfl
  | cons d b ih =>
    rw [List.forall_mem_cons] at hb
    rw [List.cons_append, hcons d hb.1, ih hb.2, List.cons_append]

end Selector

namespace Scope

open Selector

variable {s : Scope} {t x : Text} {c : Char}

/-- A compound selector is scoped without the blanks behind it. -/
theorem place_eq (h : ¬ includes .anyCase Host.marker t)
    (hhead : ∀ c ∈ t.head?, ¬ isBlank c) :
    place s.contentAttribute t = s.compound (trim t) ++ blanksAtEnd t := by
  have hstart := trimStart_eq_self hhead
  cases t with
  | nil => rfl
  | cons d t =>
    have hd := hhead d rfl
    have htake : (d :: t).takeWhile isBlank = [] := by simp [hd]
    have hlacks := not_includes_of_isInfix (trim_isInfix (d :: t)) h
    have hne : trim (trim (d :: t)) ≠ [] := by
      rw [trim_cons hd, trim_cons hd]
      exact List.cons_ne_nil _ _
    rw [compound_of_not_includes hne hlacks, place, hstart]
    simp only [htake, List.nil_append, trim, hstart]

/-- A combinator with the spaces around it, and what is inside the component behind it. -/
theorem link_alike (hc : isCombinator c) {b : Text} (hb : ∀ d ∈ b, isBlank d) {u : Text}
    (h : Alike (s.inside (trimStart u)) (eachCompound (place s.contentAttribute) (trimStart u))) :
    Alike ([' ', c, ' '] ++ s.inside (trimStart u))
      (b ++ c :: eachCompound (place s.contentAttribute) u) := by
  have hspace : ∀ d ∈ [' '], isBlank d := by decide
  have hblanks : ∀ d ∈ u.takeWhile isBlank, isBlank d := fun d hd => List.mem_takeWhile_imp hd
  have hsplit : b ++ c :: eachCompound (place s.contentAttribute) u =
      (b ++ c :: u.takeWhile isBlank) ++
        eachCompound (place s.contentAttribute) (trimStart u) := by
    conv => lhs; rw [← List.takeWhile_append_dropWhile (p := isBlank) (l := u)]
    rw [eachCompound_append_of_blanks _ hblanks]
    simp [trimStart]
  rw [hsplit]
  exact ((alike_combinator hc hspace hspace).trans (alike_combinator hc hb hblanks).symm).append h

/-- Up to spacing, every compound selector inside the component gets the content attribute. -/
theorem inside_alike (h : ¬ includes .anyCase Host.marker t) (hhead : ∀ c ∈ t.head?, ¬ isBlank c)
    (hlast : ∀ c ∈ t.getLast?, ¬ isBlank c) :
    Alike (s.inside t) (eachCompound (place s.contentAttribute) t) := by
  induction t using chain_induction with
  | run k hk =>
    have hplace : place s.contentAttribute k = s.compound (trim k) ++ blanksAtEnd k :=
      place_eq h hhead
    rw [trim, trimStart_eq_self hhead, trimEnd_eq_self hlast, blanksAtEnd_eq_nil hlast,
      List.append_nil] at hplace
    rw [inside_of_run hk, eachCompound_of_run _ hk, hplace]
    exact Alike.refl _
  | link k c t hk hc ih =>
    have hk' : ∀ d ∈ k.head?, ¬ isBlank d := by
      cases k with
      | nil => simp
      | cons d k => exact hhead
    have hplace : place s.contentAttribute k = s.compound (trim k) ++ blanksAtEnd k :=
      place_eq (not_includes_of_isInfix (List.prefix_append k _).isInfix h) hk'
    have hsuffix := trimStart_suffix_append_cons k c t
    have ih := ih (not_includes_of_isInfix hsuffix.isInfix h)
      (fun _ => not_isBlank_of_head?_trimStart) (not_isBlank_of_suffix hlast hsuffix)
    rw [inside_append_cons hk hc, eachCompound_append_cons _ hk hc, hplace, List.append_assoc]
    exact (Alike.refl _).append (link_alike hc (fun _ => isBlank_of_mem_blanksAtEnd) ih)

/-- Up to spacing, the anchor is written out and every compound selector behind it gets the content
attribute. -/
theorem strictly_alike (hx : ¬ includes .anyCase Host.marker x) (hlast : (chain x).last = [])
    {y : Text} (hy : ∀ d ∈ y, ¬ isCombinator d) (hyend : ∀ d ∈ y.getLast?, ¬ isBlank d)
    (hhost : ¬ includes .anyCase Host.marker (s.hostText ++ y))
    (ht : ¬ includes .anyCase Host.marker t) (hthead : ∀ d ∈ t.head?, isCombinator d)
    (htend : ∀ d ∈ t.getLast?, ¬ isBlank d) :
    Alike (s.strictly (x ++ (Host.anchor ++ (y ++ t))))
      (spaced (chain x).links ++
        (s.hostText ++ (y ++ eachCompound (place s.contentAttribute) t))) := by
  have hcompound : s.compound (Host.anchor ++ y) = s.hostText ++ y :=
    @compound_anchor s [] y (by decide) hhost
  have hnil : ∀ d ∈ ([] : Text), ¬ isCombinator d := fun d h => absurd h List.not_mem_nil
  cases t with
  | nil =>
    have hempty : eachCompound (place s.contentAttribute) [] = [] := eachCompound_of_run _ hnil
    rw [List.append_nil, strictly_last hx hy, hlast, List.nil_append, hcompound, hempty,
      List.append_nil]
    exact Alike.refl _
  | cons c u =>
    have hc : isCombinator c := hthead c rfl
    have hsuffix : trimStart u <:+ c :: u := trimStart_suffix_append_cons [] c u
    have hu := @inside_alike s _ (not_includes_of_isInfix hsuffix.isInfix ht)
      (fun _ => not_isBlank_of_head?_trimStart) (not_isBlank_of_suffix htend hsuffix)
    rw [strictly_link hx hlast hy hc, trimEnd_eq_self hyend, hcompound, List.append_assoc]
    refine (Alike.refl _).append ((Alike.refl _).append ((Alike.refl _).append ?_))
    have heach := eachCompound_append_cons (place s.contentAttribute) hnil hc u
    rw [List.nil_append] at heach
    rw [heach]
    exact link_alike hc (fun d hd => absurd hd List.not_mem_nil) hu

end Scope

end ScopedStyles
