import Mathlib.Data.List.TakeWhile
import ScopedStyles.Proofs.Disk.Places

/-!
# Paths and their parents

The parent of a path leads as far as the path without its last step (`Path.parent?_spec`), and is
written with fewer characters. A parent ends with a name, unless it leads nowhere
(`Path.IsTrimmed`).
-/

namespace ScopedStyles

open Text

namespace Path

variable {path parent : Text} {R below : List Text} {last : Text}

/-! ## Idle segments -/

theorem dropIdle_cons (last : Text) (hbelow : below ≠ []) :
    dropIdle (last :: below) = if isIdle last then dropIdle below else last :: below := by
  obtain ⟨x, xs, rfl⟩ := List.exists_cons_of_ne_nil hbelow
  rfl

theorem dropIdle_suffix (R : List Text) : dropIdle R <:+ R := by
  induction R with
  | nil => exact List.suffix_refl _
  | cons x R ih =>
    by_cases hR : R = []
    · subst hR
      exact List.suffix_refl _
    · rw [dropIdle_cons x hR]
      split
      · exact ih.trans (List.suffix_cons x R)
      · exact List.suffix_refl _

theorem dropIdle_ne_nil (hR : R ≠ []) : dropIdle R ≠ [] := by
  induction R with
  | nil => exact hR
  | cons x R ih =>
    by_cases hnil : R = []
    · subst hnil
      exact List.cons_ne_nil _ _
    · rw [dropIdle_cons x hnil]
      split
      · exact ih hnil
      · exact List.cons_ne_nil _ _

/-- Only segments that lead nowhere are dropped. -/
theorem filter_dropIdle (R : List Text) :
    (dropIdle R).filter (!isIdle ·) = R.filter (!isIdle ·) := by
  induction R with
  | nil => rfl
  | cons x R ih =>
    by_cases hR : R = []
    · subst hR
      rfl
    · rw [dropIdle_cons x hR]
      split
      · rename_i hx
        rw [ih, List.filter_cons_of_neg (by simpa using hx)]
      · rfl

/-- What is left ends with a segment that leads somewhere, or is the first segment. -/
theorem not_isIdle_of_dropIdle (h : dropIdle R = last :: below) : below = [] ∨ ¬ isIdle last := by
  induction R with
  | nil => cases h
  | cons x R ih =>
    by_cases hR : R = []
    · subst hR
      obtain ⟨-, rfl⟩ := List.cons.inj h
      exact .inl rfl
    · rw [dropIdle_cons x hR] at h
      split at h
      · exact ih h
      · rename_i hx
        obtain ⟨rfl, -⟩ := List.cons.inj h
        exact .inr hx

/-- Nothing is dropped in front of a segment that leads somewhere. -/
theorem dropIdle_of_not_isIdle (hlast : ¬ isIdle last) (below : List Text) :
    dropIdle (last :: below) = last :: below := by
  by_cases hbelow : below = []
  · subst hbelow
    rfl
  · rw [dropIdle_cons last hbelow, if_neg hlast]

/-- Slashes at the end come before the last segment that leads somewhere. -/
theorem dropIdle_of_dropWhile (h : R.dropWhile (·.isEmpty) = last :: below)
    (hlast : ¬ isIdle last) : dropIdle R = last :: below := by
  induction R with
  | nil => cases h
  | cons x R ih =>
    rw [List.dropWhile_cons] at h
    split at h
    · rename_i hx
      have hR : R ≠ [] := by
        rintro rfl
        cases h
      rw [dropIdle_cons x hR, if_pos (by simp [isIdle, List.isEmpty_iff.mp hx])]
      exact ih h
    · rw [h, dropIdle_of_not_isIdle hlast]

/-! ## Segments -/

theorem steps_eq_reverse (path : Text) :
    steps path = ((split '/' path).reverse.filter (!isIdle ·)).reverse := by
  rw [List.filter_reverse, List.reverse_reverse, steps]

theorem isAbsolute_iff : isAbsolute path ↔ ∃ rest, rest ≠ [] ∧ split '/' path = [] :: rest := by
  cases path with
  | nil => simp [isAbsolute, split]
  | cons c t =>
    rw [split]
    by_cases hc : c = '/'
    · subst hc
      simp [isAbsolute]
    · obtain ⟨piece, pieces, hsplit⟩ := List.exists_cons_of_ne_nil (split_ne_nil '/' t)
      simp [isAbsolute, hc, Ne.symm hc, hsplit]

/-- Slashes at the end lead nowhere. -/
theorem steps_of_dropWhile
    (h : (split '/' path).reverse.dropWhile (·.isEmpty) = last :: below) :
    steps path = (below.reverse ++ [last]).filter (!isIdle ·) := by
  have hempty : ((split '/' path).reverse.takeWhile (·.isEmpty)).filter (!isIdle ·) = [] := by
    refine List.filter_eq_nil_iff.mpr fun s hs => ?_
    have hs := List.mem_takeWhile_imp hs
    simp [isIdle, List.isEmpty_iff.mp hs]
  have hsplit := List.takeWhile_append_dropWhile (p := (·.isEmpty)) (l := (split '/' path).reverse)
  rw [steps_eq_reverse, ← hsplit, List.filter_append, hempty, List.nil_append, h,
    ← List.filter_reverse, List.reverse_cons]

theorem steps_of_dropWhile_eq_nil (h : (split '/' path).reverse.dropWhile (·.isEmpty) = []) :
    steps path = [] := by
  refine List.filter_eq_nil_iff.mpr fun s hs => ?_
  have hempty := List.dropWhile_eq_nil_iff.mp h s (List.mem_reverse.mpr hs)
  simp [isIdle, List.isEmpty_iff.mp hempty]

theorem ne_nil_of_dropWhile (h : R.dropWhile (·.isEmpty) = last :: below) : last ≠ [] := by
  have hnonempty := List.head?_dropWhile_not (·.isEmpty) R
  rw [h] at hnonempty
  simpa using hnonempty

/-- The last segment that is not empty leads somewhere, or there is no other. -/
def IsTrimmed (path : Text) : Prop :=
  ∀ last below, (split '/' path).reverse.dropWhile (·.isEmpty) = last :: below →
    isIdle last → below = []

/-! ## Parents -/

/-- A path that is put together from fewer segments is shorter. -/
theorem length_intercalate_lt {segments more : List Text} (hsegments : segments ≠ [])
    (hmore : more ≠ []) :
    ['/'].intercalate segments <+: ['/'].intercalate (segments ++ more) ∧
      (['/'].intercalate segments).length < (['/'].intercalate (segments ++ more)).length := by
  rw [intercalate_append hsegments hmore]
  refine ⟨List.prefix_append _ _, ?_⟩
  simp only [List.length_append, List.length_singleton]
  omega

theorem isTrimmed_of_forall_isEmpty (h : ∀ s ∈ split '/' path, s.isEmpty) : IsTrimmed path := by
  intro last below hdrop
  rw [List.dropWhile_eq_nil_iff.mpr fun s hs => h s (List.mem_reverse.mp hs)] at hdrop
  cases hdrop

theorem isTrimmed_of_dropIdle (h : (split '/' path).reverse = dropIdle R) : IsTrimmed path := by
  intro last below hdrop hidle
  rw [h] at hdrop
  cases hR : dropIdle R with
  | nil => rw [hR] at hdrop; cases hdrop
  | cons x xs =>
    rw [hR] at hdrop
    rcases not_isIdle_of_dropIdle hR with rfl | hx
    · rw [List.dropWhile_cons] at hdrop
      split at hdrop
      · cases hdrop
      · exact (List.cons.inj hdrop).2.symm
    · have hne : ¬ x.isEmpty := fun hempty => hx (by simp [isIdle, List.isEmpty_iff.mp hempty])
      rw [List.dropWhile_cons_of_neg hne] at hdrop
      exact absurd ((List.cons.inj hdrop).1 ▸ hidle) hx

/-- The path `parent` is `path` without its last step. -/
structure IsParent (parent path : Text) : Prop where
  steps_eq : steps parent = (steps path).dropLast
  isAbsolute_iff : isAbsolute parent ↔ isAbsolute path
  isPrefix : parent <+: path
  length_lt : parent.length < path.length
  isTrimmed : IsTrimmed parent

/-- A path of one segment has a parent that leads nowhere. -/
theorem isParent_nil {first : Text} (h : dropIdle (split '/' path).reverse = [first])
    (hne : first ≠ []) : IsParent [] path where
  steps_eq := by
    rw [steps_eq_reverse path, ← filter_dropIdle, h, List.filter_singleton]
    cases isIdle first <;> rfl
  isAbsolute_iff := by
    refine iff_of_false (by decide) fun habsolute => ?_
    obtain ⟨rest, -, hsplit⟩ := isAbsolute_iff.mp habsolute
    have hsuffix := dropIdle_suffix (split '/' path).reverse
    rw [h, hsplit, List.reverse_cons] at hsuffix
    obtain ⟨x, hx⟩ := hsuffix
    exact hne (List.cons.inj (List.append_inj' hx rfl).2).1
  isPrefix := List.nil_prefix
  length_lt := by
    refine List.length_pos_iff.mpr ?_
    rintro rfl
    exact hne (List.cons.inj (show [first] = [[]] from h.symm)).1
  isTrimmed := isTrimmed_of_forall_isEmpty (by simp [split])

/-- Behind the segments of the parent there are idle ones, the last step, and idle ones. -/
theorem exists_split_eq_of_dropIdle (h : dropIdle (split '/' path).reverse = last :: below) :
    ∃ more, last ∈ more ∧ split '/' path = (dropIdle below).reverse ++ more := by
  obtain ⟨behind, hbehind⟩ := dropIdle_suffix (split '/' path).reverse
  obtain ⟨dropped, hdropped⟩ := dropIdle_suffix below
  have hreverse : (split '/' path).reverse = behind ++ last :: (dropped ++ dropIdle below) := by
    rw [← hbehind, h, hdropped]
  refine ⟨dropped.reverse ++ ([last] ++ behind.reverse), by simp, ?_⟩
  rw [← List.reverse_reverse (split '/' path), hreverse]
  simp

theorem dropLast_steps (h : dropIdle (split '/' path).reverse = last :: below)
    (hlast : ¬ isIdle last) :
    (steps path).dropLast = ((dropIdle below).filter (!isIdle ·)).reverse := by
  rw [steps_eq_reverse path, ← filter_dropIdle, h, filter_dropIdle,
    List.filter_cons_of_pos (by simpa using hlast), List.reverse_cons, List.dropLast_concat]

/-- The parent of a path with one step from the root is the root. -/
theorem isParent_root (h : dropIdle (split '/' path).reverse = last :: below)
    (hlast : ¬ isIdle last) (hroot : dropIdle below = [[]]) : IsParent ['/'] path := by
  obtain ⟨more, hmem, hpath⟩ := exists_split_eq_of_dropIdle h
  have hmore : more ≠ [] := List.ne_nil_of_mem hmem
  rw [hroot] at hpath
  have hslash : path = '/' :: ['/'].intercalate more := by
    rw [← intercalate_split '/' path, hpath]
    exact intercalate_append (List.cons_ne_nil [] []) hmore ['/']
  have hlong := (infix_intercalate ['/'] hmem).length_le
  have hlen : 0 < last.length :=
    List.length_pos_iff.mpr fun hnil => hlast (by simp [isIdle, hnil])
  refine ⟨?_, ?_, ?_, ?_, isTrimmed_of_forall_isEmpty (by simp [split])⟩
  · rw [dropLast_steps h hlast, hroot]
    decide
  · exact iff_of_true rfl (isAbsolute_iff.mpr ⟨_, hmore, hpath⟩)
  · rw [hslash]
    exact ⟨_, rfl⟩
  · rw [hslash, List.length_cons, List.length_cons, List.length_nil]
    omega

/-- The parent of another path has the segments in front of the last step. -/
theorem isParent_intercalate (h : dropIdle (split '/' path).reverse = last :: below)
    (hlast : ¬ isIdle last) (hbelow : below ≠ []) (hroot : dropIdle below ≠ [[]]) :
    IsParent (['/'].intercalate (dropIdle below).reverse) path := by
  obtain ⟨more, hmem, hpath⟩ := exists_split_eq_of_dropIdle h
  have hmore : more ≠ [] := List.ne_nil_of_mem hmem
  have hnonempty := List.reverse_ne_nil_iff.mpr (dropIdle_ne_nil hbelow)
  have hshorter := length_intercalate_lt hnonempty hmore
  rw [← hpath, intercalate_split] at hshorter
  have hslash : ∀ s ∈ (dropIdle below).reverse, '/' ∉ s := by
    intro s hs
    refine not_mem_of_mem_split (t := path) ?_
    rw [hpath]
    exact List.mem_append_left _ hs
  have hsplit := split_intercalate hnonempty hslash
  refine ⟨?_, ?_, hshorter.1, hshorter.2, ?_⟩
  · rw [steps, hsplit, dropLast_steps h hlast, List.filter_reverse]
  · rw [isAbsolute_iff, isAbsolute_iff, hsplit, hpath]
    obtain ⟨first, others, hothers⟩ := List.exists_cons_of_ne_nil hnonempty
    rw [hothers]
    constructor
    · rintro ⟨rest, -, hrest⟩
      obtain ⟨rfl, rfl⟩ := List.cons.inj hrest
      exact ⟨_, by simp [hmore], rfl⟩
    · rintro ⟨rest, -, hrest⟩
      obtain ⟨rfl, -⟩ := List.cons.inj hrest
      refine ⟨others, ?_, rfl⟩
      rintro rfl
      exact hroot (List.reverse_eq_iff.mp hothers)
  · exact isTrimmed_of_dropIdle (by rw [hsplit, List.reverse_reverse])

theorem isParent_of_parent? (h : parent? path = some parent) : IsParent parent path := by
  rw [parent?] at h
  split at h
  · cases h
  · rename_i first hfirst
    split at h
    · cases h
    · rename_i hne
      obtain rfl := Option.some.inj h
      exact isParent_nil hfirst hne
  · rename_i last below hnot hdrop
    have hbelow : below ≠ [] := fun hnil => hnot hnil
    have hlast := (not_isIdle_of_dropIdle hdrop).resolve_left hbelow
    split at h
    · rename_i hroot
      obtain rfl := Option.some.inj h
      exact isParent_root hdrop hlast hroot
    · rename_i hroot
      obtain rfl := Option.some.inj h
      exact isParent_intercalate hdrop hlast hbelow hroot

end Path

end ScopedStyles
