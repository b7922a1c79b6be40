import Mathlib.Algebra.Order.BigOperators.Group.List
import Mathlib.Algebra.Order.Group.Nat
import ScopedStyles.Proofs.Url.Folding

/-!
# Walks

A path walks over the disk from place to place. On the disk there are only finitely many places, so
a path in which nothing that leads back follows a name cannot be long unless it has many empty
segments, or climbs above the root, where it can go on for ever (`Disk.length_le_of_locate`).
-/

namespace ScopedStyles

open Text

namespace Disk

variable {d : Disk} {place p q : Place} {path folder s : Text} {front segments : List Text}
  {n e : Nat}

/-! ## Above the root -/

/-- Whether segments lead above the root, where they stay at the root. -/
def climbs (place : Place) : List Text → Bool
  | [] => false
  | s :: segments => s == ['.', '.'] && place.isEmpty || climbs (advance place s) segments

theorem climbs_append (place : Place) (front segments : List Text) :
    climbs place (front ++ segments) =
      (climbs place front || climbs (arrive place front) segments) := by
  induction front generalizing place with
  | nil => rfl
  | cons s front ih =>
    rw [List.cons_append, climbs, climbs, ih, Bool.or_assoc]
    rfl

/-! ## Folded walks -/

/-- From empty segment to empty segment a folded path leads back first, no further than to the root,
and then on through names, no further than there are places. -/
theorem length_le_of_walk (hchain : segments.IsChain Url.MayFollow) (hpoint : ['.'] ∉ segments)
    (hway : ∀ p ∈ way place (segments.filter (!Path.isIdle ·)), p.length ≤ n)
    (hclimbs : ¬ climbs place (segments.filter (!Path.isIdle ·))) :
    segments.length ≤ segments.count [] * (2 * n + 1) + n + place.length ∧
      (segments.head? ≠ some ['.', '.'] →
        segments.length + place.length ≤ segments.count [] * (2 * n + 1) + n) := by
  induction segments generalizing place with
  | nil =>
    have hplace := hway place List.mem_cons_self
    simp only [List.length_nil, List.count_nil]
    omega
  | cons s segments ih =>
    obtain ⟨hfollows, hchain'⟩ := List.isChain_cons.mp hchain
    rw [List.mem_cons, not_or] at hpoint
    by_cases hempty : s = []
    · subst hempty
      have hskip : ([] :: segments).filter (!Path.isIdle ·) = segments.filter (!Path.isIdle ·) :=
        rfl
      rw [hskip] at hway hclimbs
      have hplace := hway place (mem_way_self _ _)
      obtain ⟨hle, -⟩ := ih hchain' hpoint.2 hway hclimbs
      rw [List.length_cons, List.count_cons_self, Nat.succ_mul]
      omega
    have hidle : ¬ Path.isIdle s := by simp [Path.isIdle, hempty, Ne.symm hpoint.1]
    rw [List.filter_cons_of_pos (by simpa using hidle)] at hway hclimbs
    obtain ⟨hplace, hway⟩ := List.forall_mem_cons.mp hway
    rw [climbs, Bool.or_eq_true, not_or] at hclimbs
    obtain ⟨hle, hnames⟩ := ih hchain' hpoint.2 hway hclimbs.2
    rw [List.length_cons, List.count_cons_of_ne hempty]
    by_cases hup : s = ['.', '.']
    · subst hup
      have hdown : place ≠ [] := by
        rintro rfl
        exact hclimbs.1 rfl
      have hshorter : (advance place ['.', '.']).length = place.length - 1 := List.length_dropLast
      have hpos := List.length_pos_iff.mpr hdown
      refine ⟨by omega, fun hhead => absurd rfl hhead⟩
    · have hlonger : (advance place s).length = place.length + 1 := by
        rw [advance, if_neg hup, List.length_append, List.length_singleton]
      have hnext := hnames fun hhead => by
        rcases hfollows _ hhead rfl with h | h
        · exact hempty h
        · exact hup h
      omega

/-! ## Places on the disk -/

theorem way_subset_append (place : Place) (front segments : List Text) :
    way (arrive place front) segments ⊆ way place (front ++ segments) := by
  induction front generalizing place with
  | nil => exact List.Subset.refl _
  | cons s front ih => exact fun p hp => List.mem_cons_of_mem _ (ih (advance place s) hp)

/-- A name in a path is in one of the places on the way. -/
theorem exists_mem_way (hs : s ∈ segments) (hup : s ≠ ['.', '.']) :
    ∃ p ∈ way place segments, s ∈ p := by
  obtain ⟨front, behind, rfl⟩ := List.append_of_mem hs
  refine ⟨arrive place front ++ [s], ?_, by simp⟩
  have hnext : arrive place front ++ [s] = arrive place (front ++ [s]) := by
    rw [arrive_append]
    exact (if_neg hup).symm
  rw [hnext, List.append_cons]
  exact way_subset_append place (front ++ [s]) behind (mem_way_self _ _)

theorem isThere_start (d : Disk) (path : Text) : d.isThere (d.start path) := by
  by_cases hfile : d.isFile (d.start path)
  · rw [isThere, hfile, Bool.true_or]
  · exact isThere_of_isFolder (isFolder_start hfile)

/-- What segments lead through is there. -/
theorem isThere_of_mem_way (hplace : d.isThere place) (h : segments.foldlM d.enter place = .ok q)
    (hp : p ∈ way place segments) : d.isThere p := by
  induction segments generalizing place with
  | nil => exact List.mem_singleton.mp hp ▸ hplace
  | cons s segments ih =>
    rw [List.foldlM_cons] at h
    cases hs : d.enter place s with
    | error e => rw [hs] at h; cases h
    | ok r =>
      rw [hs] at h
      obtain ⟨hfolder, -, rfl, hthere⟩ := enter_eq_ok_iff.mp hs
      rcases List.mem_cons.mp hp with rfl | hp
      · exact hplace
      refine ih ?_ h hp
      rw [advance]
      split
      · by_cases hfile : d.isFile place.dropLast
        · rw [isThere, hfile, Bool.true_or]
        · exact isThere_of_isFolder
            (isFolder_of_isPrefix hfolder (List.dropLast_prefix place) hfile)
      · rename_i hup
        exact hthere.resolve_left hup

/-- The places on a disk are not longer than `n`, and the names in them are not. -/
def IsWithin (d : Disk) (n : Nat) : Prop :=
  ∀ p, d.isThere p → p.length ≤ n ∧ ∀ name ∈ p, name.length ≤ n

theorem exists_isWithin (d : Disk) : ∃ n, d.IsWithin n := by
  refine ⟨(d.places.map fun q => q.length + (q.map List.length).sum).sum, fun p hp => ?_⟩
  have hplaces : p = [] ∨ ∃ q ∈ d.places, p <+: q := by
    rw [isThere, Bool.or_eq_true] at hp
    rcases hp with hp | hp
    · refine .inr ⟨p, ?_, List.prefix_refl p⟩
      obtain ⟨c, hc⟩ := Option.isSome_iff_exists.mp hp
      obtain ⟨before, after, hfiles, -⟩ := List.lookup_eq_some_iff.mp hc
      simp [places, hfiles]
    · exact (isFolder_iff.mp hp).2
  rcases hplaces with rfl | ⟨q, hq, hpre⟩
  · simp
  · have hsum := List.le_sum_of_mem
      (List.mem_map_of_mem (f := fun q => q.length + (q.map List.length).sum) hq)
    refine ⟨?_, fun name hname => ?_⟩
    · have := hpre.length_le
      omega
    · have := List.le_sum_of_mem (List.mem_map_of_mem (f := List.length) (hpre.subset hname))
      omega

/-! ## Paths that lead somewhere -/

/-- Behind the first segment a path stands as it is at the end of any path that it makes up. -/
theorem exists_steps_join_eq (folder path : Text) :
    ∃ front, Path.steps (Path.join folder path) =
      front ++ (split '/' path).tail.filter (!Path.isIdle ·) := by
  have hpath : ∃ front,
      Path.steps path = front ++ (split '/' path).tail.filter (!Path.isIdle ·) := by
    obtain ⟨first, rest, hsplit⟩ := List.exists_cons_of_ne_nil (split_ne_nil '/' path)
    refine ⟨[first].filter (!Path.isIdle ·), ?_⟩
    rw [Path.steps, hsplit, List.tail_cons, ← List.filter_append, List.singleton_append]
  obtain ⟨front, hfront⟩ := hpath
  by_cases habsolute : Path.isAbsolute path
  · exact ⟨front, by rw [Path.join, if_pos habsolute, hfront]⟩
  · exact ⟨Path.steps folder ++ front, by
      rw [Path.steps_join folder habsolute, hfront, List.append_assoc]⟩

theorem steps_subset_steps_join (folder path : Text) :
    Path.steps path ⊆ Path.steps (Path.join folder path) := by
  by_cases habsolute : Path.isAbsolute path
  · rw [Path.join, if_pos habsolute]
    exact List.Subset.refl _
  · rw [Path.steps_join folder habsolute]
    exact List.subset_append_right _ _

/-- A folded path that leads somewhere without climbing above the root has no more characters than
the disk and the empty segments allow for. -/
theorem length_le_of_locate (hn : d.IsWithin n)
    (hlocate : d.locate (Path.join folder path) = .ok place)
    (hclimbs : ¬ climbs (d.start (Path.join folder path)) (Path.steps (Path.join folder path)))
    (hchain : (split '/' path).tail.IsChain Url.MayFollow) (hpoint : ['.'] ∉ (split '/' path).tail)
    (hempty : (split '/' path).tail.count [] ≤ e) :
    path.length ≤ (1 + (e + 1) * (2 * n + 1)) * (n + 3) := by
  obtain ⟨-, hsteps, -⟩ := locate_eq_ok_iff.mp hlocate
  have hthere : ∀ p ∈ way (d.start (Path.join folder path)) (Path.steps (Path.join folder path)),
      d.isThere p := fun p hp => isThere_of_mem_way (isThere_start d _) hsteps hp
  have hsegments : ∀ s ∈ split '/' path, s.length ≤ n + 2 := by
    intro s hs
    by_cases hidle : Path.isIdle s
    · have hs : s = [] ∨ s = ['.'] := by simpa [Path.isIdle] using hidle
      rcases hs with rfl | rfl <;> simp
    · by_cases hup : s = ['.', '.']
      · subst hup
        simp
      · have hstep := steps_subset_steps_join folder path
          (List.mem_filter.mpr ⟨hs, by simpa using hidle⟩)
        obtain ⟨p, hp, hmem⟩ : ∃ p ∈ way (d.start (Path.join folder path))
            (Path.steps (Path.join folder path)), s ∈ p := exists_mem_way hstep hup
        have := (hn p (hthere p hp)).2 s hmem
        omega
  have htail : (split '/' path).tail.length ≤ (e + 1) * (2 * n + 1) := by
    obtain ⟨front, hfront⟩ := exists_steps_join_eq folder path
    rw [hfront] at hthere hclimbs
    rw [climbs_append, Bool.or_eq_true, not_or] at hclimbs
    have hway : ∀ p ∈ way (arrive (d.start (Path.join folder path)) front)
        ((split '/' path).tail.filter (!Path.isIdle ·)), p.length ≤ n := fun p hp =>
      (hn p (hthere p (way_subset_append _ _ _ hp))).1
    obtain ⟨hle, -⟩ := length_le_of_walk hchain hpoint hway hclimbs.2
    have hstart := hway _ (mem_way_self _ _)
    have hmul := Nat.mul_le_mul_right (2 * n + 1) hempty
    rw [Nat.succ_mul]
    omega
  have hlength : (split '/' path).length ≤ 1 + (e + 1) * (2 * n + 1) := by
    rw [List.length_tail] at htail
    omega
  calc path.length
      = (['/'].intercalate (split '/' path)).length := by rw [intercalate_split]
    _ ≤ (split '/' path).length * (n + 2 + 1) := length_intercalate_le hsegments
    _ ≤ (1 + (e + 1) * (2 * n + 1)) * (n + 3) := Nat.mul_le_mul_right _ hlength

end Disk

end ScopedStyles
