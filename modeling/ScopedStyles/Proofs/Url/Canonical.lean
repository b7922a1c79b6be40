import ScopedStyles.Proofs.Url.Folding

/-!
# Canonical paths

A folded path is in a form that folding leaves alone (`Url.foldDots_foldDots`). It leads where the
path leads from any place, and it leads nowhere exactly if the path climbs above the first place
(`Url.walk?_foldDots`). Both together are `Url.foldDots_canonical`.
-/

namespace ScopedStyles

open Text

namespace Url

variable {place : List Text} {stack segments : List Text} {s : Text}

/-! ## Walking -/

/-- Where a segment leads from a place, which is given by the names down to it. Above the first
place there is nothing. -/
def step? (place : List Text) (segment : Text) : Option (List Text) :=
  if Path.isIdle segment then some place
  else if segment = ['.', '.'] then if place = [] then none else some place.dropLast
  else some (place ++ [segment])

/-- Where a path leads from a place, segment by segment. -/
def walk? (place : List Text) (path : Text) : Option (List Text) :=
  (split '/' path).foldlM step? place

theorem step?_of_isIdle (h : Path.isIdle s) (place : List Text) : step? place s = some place := by
  rw [step?, if_pos h]

theorem step?_up (hplace : place ≠ []) : step? place ['.', '.'] = some place.dropLast := by
  rw [step?, if_neg (by decide), if_pos rfl, if_neg hplace]

theorem step?_name (hidle : ¬ Path.isIdle s) (hup : s ≠ ['.', '.']) (place : List Text) :
    step? place s = some (place ++ [s]) := by
  rw [step?, if_neg hidle, if_neg hup]

/-- A place that is deep enough is not left upwards. -/
theorem exists_walk (h : segments.count ['.', '.'] ≤ place.length) :
    ∃ arrival, segments.foldlM step? place = some arrival := by
  induction segments generalizing place with
  | nil => exact ⟨place, rfl⟩
  | cons s segments ih =>
    rw [List.foldlM_cons]
    by_cases hidle : Path.isIdle s
    · rw [step?_of_isIdle hidle]
      exact ih (List.count_le_count_cons.trans h)
    by_cases hup : s = ['.', '.']
    · subst hup
      rw [List.count_cons_self] at h
      have hplace : place ≠ [] := by
        intro hnil
        rw [hnil, List.length_nil] at h
        omega
      have hdeep : segments.count ['.', '.'] ≤ place.dropLast.length := by
        rw [List.length_dropLast]
        omega
      rw [step?_up hplace]
      exact ih hdeep
    · rw [List.count_cons_of_ne hup] at h
      have hdeep : segments.count ['.', '.'] ≤ (place ++ [s]).length := by
        rw [List.length_append]
        omega
      rw [step?_name hidle hup]
      exact ih hdeep

/-! ## Walking along what is folded -/

/-- A name that is taken back leads nowhere. -/
theorem walk_name_up (hidle : ¬ Path.isIdle s) (hup : s ≠ ['.', '.']) (place : List Text) :
    [s, ['.', '.']].foldlM step? place = some place := by
  have hdown : step? (place ++ [s]) ['.', '.'] = some place := by
    rw [step?_up (List.append_ne_nil_of_right_ne_nil _ (List.cons_ne_nil s [])),
      List.dropLast_concat]
  rw [List.foldlM_cons, step?_name hidle hup]
  show (step? (place ++ [s]) ['.', '.'] >>= fun arrival => pure arrival) = some place
  rw [hdown]
  rfl

/-- One more segment leads on from where the folded ones lead. -/
theorem walk_pushSegment (h : IsFolded stack) (s : Text) (place : List Text) :
    (pushSegment stack s).reverse.foldlM step? place =
      (stack.reverse ++ [s]).foldlM step? place := by
  rcases pushSegment_cases stack s with ⟨rfl, heq⟩ | ⟨top, below, rfl, rfl, hne, hup, heq⟩ |
    ⟨-, -, heq⟩
  · have hstay : ∀ arrival, [['.']].foldlM step? arrival = some arrival := fun arrival => rfl
    rw [heq, List.foldlM_append]
    simp only [hstay]
    exact (bind_pure (List.foldlM step? place stack.reverse)).symm
  · have hidle : ¬ Path.isIdle top := by
      have hpoint : top ≠ ['.'] := fun hpoint => h.no_point (hpoint ▸ List.mem_cons_self)
      simp [Path.isIdle, hne, hpoint]
    rw [heq, List.reverse_cons, List.append_assoc, List.singleton_append, List.foldlM_append]
    simp only [walk_name_up hidle hup]
    exact (bind_pure (List.foldlM step? place below.reverse)).symm
  · rw [heq, List.reverse_cons]

/-- Folded segments lead where the segments lead. -/
theorem walk_foldl_pushSegment (h : IsFolded stack) (segments place : List Text) :
    (segments.foldl pushSegment stack).reverse.foldlM step? place =
      (stack.reverse ++ segments).foldlM step? place := by
  induction segments generalizing stack with
  | nil => rw [List.foldl_nil, List.append_nil]
  | cons s segments ih =>
    calc ((s :: segments).foldl pushSegment stack).reverse.foldlM step? place
        = ((pushSegment stack s).reverse ++ segments).foldlM step? place := ih (h.push s)
      _ = (stack.reverse ++ [s]).foldlM step? place >>= segments.foldlM step? := by
          rw [List.foldlM_append, walk_pushSegment h]
      _ = (stack.reverse ++ s :: segments).foldlM step? place := by
          rw [← List.foldlM_append, List.append_assoc, List.singleton_append]

/-! ## Folded paths -/

/-- A folded path leads where the path leads, if it leads anywhere. -/
theorem walk?_foldDots (place : List Text) (path : Text) :
    walk? place (foldDots path) = walk? place path := by
  have hfolded := walk_foldl_pushSegment isFolded_nil (split '/' path) place
  rw [← foldSegments, List.reverse_nil, List.nil_append] at hfolded
  unfold walk?
  rcases split_foldDots path with ⟨-, hsplit⟩ | ⟨hnil, hsplit⟩
  · rw [hsplit, hfolded]
  · rw [hsplit, ← hfolded, hnil]
    rfl

/-- A folded path is folded into itself. -/
theorem foldDots_foldDots (path : Text) : foldDots (foldDots path) = foldDots path := by
  show ['/'].intercalate (foldSegments (split '/' (foldDots path))).reverse = foldDots path
  rcases split_foldDots path with ⟨-, hsplit⟩ | ⟨hnil, hsplit⟩
  · rw [hsplit, (isFolded_foldSegments (split '/' path)).foldSegments_reverse]
    rfl
  · have hempty : foldDots path = [] := by
      show ['/'].intercalate (foldSegments (split '/' path)).reverse = []
      rw [hnil]
      rfl
    rw [hsplit, hempty]
    rfl

/-- A folded path has no point, and what leads back in it stands in front, or behind an empty
segment or another one that leads back. It is folded into itself, and leads where the path leads
from any place. A path that has no more segments leading back than there are names down to the place
leads somewhere. -/
theorem foldDots_canonical (path : Text) :
    ['.'] ∉ split '/' (foldDots path) ∧ (split '/' (foldDots path)).IsChain MayFollow ∧
      foldDots (foldDots path) = foldDots path ∧
      ∀ place, walk? place (foldDots path) = walk? place path ∧
        ((split '/' path).count ['.', '.'] ≤ place.length → (walk? place path).isSome) := by
  obtain ⟨hchain, hpoint⟩ := isChain_split_foldDots path
  refine ⟨hpoint, hchain, foldDots_foldDots path, fun place => ⟨walk?_foldDots place path, ?_⟩⟩
  intro hdeep
  exact Option.isSome_iff_exists.mpr (exists_walk hdeep)

/-- A path that leads back further than it came, from four names down. -/
theorem foldDots_canonical_back :
    walk? ["w".toList, "x".toList, "y".toList, "z".toList]
          (foldDots "a/../.././b/../../c.css".toList) =
        some ["w".toList, "x".toList, "c.css".toList] ∧
      (walk? ["w".toList, "x".toList, "y".toList, "z".toList]
        "a/../.././b/../../c.css".toList).isSome := by
  obtain ⟨-, -, -, hwalk⟩ := foldDots_canonical "a/../.././b/../../c.css".toList
  obtain ⟨hsame, hsome⟩ := hwalk ["w".toList, "x".toList, "y".toList, "z".toList]
  exact ⟨hsame.trans (by decide), hsome (by decide)⟩

end Url

end ScopedStyles
