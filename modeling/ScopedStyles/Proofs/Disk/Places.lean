import Mathlib.Data.List.Induction
import ScopedStyles.Disk.Folders
import ScopedStyles.Proofs.Text.Pieces

/-!
# Places

A path leads to a place through others. Which ones these are is in the path and the working folder
(`Disk.way`, `Disk.destination`); what is on the disk decides whether the path leads there. It does
if all places on the way are folders (`Disk.enter_way`), and still does when a disk has more folders
and files than before (`Disk.Extends.locate`).
-/

namespace ScopedStyles

open Text

/-- The segments of a path that lead somewhere. -/
def Path.steps (path : Text) : List Text := (split '/' path).filter (!isIdle ·)

namespace Disk

/-! ## The way to a place -/

/-- The place one segment further, whatever is there. -/
def advance (place : Place) (segment : Text) : Place :=
  if segment = ['.', '.'] then place.dropLast else place ++ [segment]

/-- The place that segments lead to, whatever is there. -/
def arrive (place : Place) (segments : List Text) : Place := segments.foldl advance place

/-- The places that segments lead through, with the first one and the last one. -/
def way (place : Place) : List Text → List Place
  | [] => [place]
  | segment :: segments => place :: way (advance place segment) segments

/-- Where a path leads, if it leads anywhere. -/
def destination (d : Disk) (path : Text) : Place := arrive (d.start path) (Path.steps path)

/-- A name is not too long for the system. -/
def Fits (segment : Text) : Prop := segment = ['.', '.'] ∨ byteLength segment ≤ nameLimit

section Way

variable {place p q : Place} {segment : Text} {segments : List Text}

theorem arrive_append (place : Place) (segments segments' : List Text) :
    arrive place (segments ++ segments') = arrive (arrive place segments) segments' :=
  List.foldl_append

theorem way_concat (place : Place) (segments : List Text) (segment : Text) :
    way place (segments ++ [segment]) =
      way place segments ++ [advance (arrive place segments) segment] := by
  induction segments generalizing place with
  | nil => rfl
  | cons s segments ih => exact congrArg (place :: ·) (ih (advance place s))

theorem way_dropLast_subset (place : Place) (segments : List Text) :
    way place segments.dropLast ⊆ way place segments := by
  cases segments using List.reverseRecOn with
  | nil => exact List.Subset.refl _
  | append_singleton init name =>
    rw [List.dropLast_concat, way_concat]
    exact List.subset_append_left _ _

theorem mem_way_self (place : Place) (segments : List Text) : place ∈ way place segments := by
  cases segments <;> simp [way]

theorem arrive_mem_way (place : Place) (segments : List Text) :
    arrive place segments ∈ way place segments := by
  induction segments generalizing place with
  | nil => exact List.mem_cons_self
  | cons s segments ih => exact List.mem_cons_of_mem _ (ih (advance place s))

/-- What is on the way to a place on the way is on the way itself, or on the way to the start. -/
theorem mem_way_of_isPrefix (hp : p ∈ way place segments) (hq : q <+: p) :
    q ∈ way place segments ∨ q <+: place := by
  induction segments generalizing place with
  | nil => exact .inr (List.mem_singleton.mp hp ▸ hq)
  | cons s segments ih =>
    rcases List.mem_cons.mp hp with rfl | hp
    · exact .inr hq
    rcases ih hp with hmem | hpre
    · exact .inl (List.mem_cons_of_mem _ hmem)
    rw [advance] at hpre
    split at hpre
    · exact .inr (hpre.trans (List.dropLast_prefix place))
    · rename_i hs
      rcases List.prefix_concat_iff.mp hpre with rfl | hpre
      · have hself := mem_way_self (advance place s) segments
        rw [advance, if_neg hs] at hself
        exact .inl (List.mem_cons_of_mem _ (by rwa [advance, if_neg hs]))
      · exact .inr hpre

end Way

/-! ## Folders and files -/

section Folders

variable {d : Disk} {place p q : Place} {segment path : Text} {segments : List Text}

theorem isFolder_iff :
    d.isFolder q ↔ ¬ d.isFile q ∧ (q = [] ∨ ∃ p ∈ d.places, q <+: p) := by
  simp [isFolder]

theorem not_isFile_of_isFolder (h : d.isFolder q) : ¬ d.isFile q := (isFolder_iff.mp h).1

theorem isFolder_of_isThere (h : d.isThere q) (hfile : ¬ d.isFile q) : d.isFolder q := by
  simpa [isThere, hfile] using h

theorem isThere_of_isFolder (h : d.isFolder q) : d.isThere q := by
  simp [isThere, h]

/-- What is on the way to a folder is a folder, unless a file is there. -/
theorem isFolder_of_isPrefix (h : d.isFolder p) (hq : q <+: p) (hfile : ¬ d.isFile q) :
    d.isFolder q := by
  obtain ⟨-, rfl | ⟨r, hr, hp⟩⟩ := isFolder_iff.mp h
  · exact isFolder_iff.mpr ⟨hfile, .inl (List.prefix_nil.mp hq)⟩
  · exact isFolder_iff.mpr ⟨hfile, .inr ⟨r, hr, hq.trans hp⟩⟩

/-- A path begins at a folder, unless a file is there. -/
theorem isFolder_start (hfile : ¬ d.isFile (d.start path)) : d.isFolder (d.start path) := by
  refine isFolder_iff.mpr ⟨hfile, ?_⟩
  rw [start]
  split
  · exact .inl rfl
  · exact .inr ⟨d.home, List.mem_cons_self, List.prefix_refl _⟩

/-! ## Entering folders -/

theorem enter_eq_ok_iff :
    d.enter place segment = .ok q ↔ d.isFolder place ∧ Fits segment ∧
      q = advance place segment ∧ (segment = ['.', '.'] ∨ d.isThere (place ++ [segment])) := by
  by_cases hfolder : d.isFolder place
  swap
  · simp [enter, hfolder]
  by_cases hup : segment = ['.', '.']
  · have hdrop : d.enter place segment = .ok place.dropLast := by simp [enter, hfolder, hup]
    rw [hdrop, advance, if_pos hup]
    simp only [Except.ok.injEq]
    exact ⟨fun h => ⟨hfolder, .inl hup, h.symm, .inl hup⟩, fun h => h.2.2.1.symm⟩
  rw [advance, if_neg hup, Fits, enter]
  simp only [hfolder, hup, Bool.not_true, Bool.false_eq_true, if_false, false_or, true_and]
  by_cases hlong : nameLimit < byteLength segment
  · have hfits : ¬ byteLength segment ≤ nameLimit := Nat.not_le.mpr hlong
    simp [hlong, hfits]
  by_cases hthere : d.isThere (place ++ [segment])
  · simp only [hlong, hthere, if_true, if_false, Except.ok.injEq, Nat.not_lt.mp hlong, true_and,
      and_true]
    exact eq_comm
  · simp [hlong, hthere]

/-- What segments lead through, if they lead anywhere, are folders. -/
theorem of_enter_eq_ok (h : segments.foldlM d.enter place = .ok q) :
    q = arrive place segments ∧ (∀ s ∈ segments, Fits s) ∧
      (d.isFolder q → ∀ p ∈ way place segments, d.isFolder p) := by
  induction segments generalizing place with
  | nil =>
    obtain rfl := Except.ok.inj h
    exact ⟨rfl, by simp, by simp [way]⟩
  | cons s segments ih =>
    rw [List.foldlM_cons] at h
    cases hs : d.enter place s with
    | error e => rw [hs] at h; cases h
    | ok p =>
      rw [hs] at h
      obtain ⟨hfolder, hfits, rfl, -⟩ := enter_eq_ok_iff.mp hs
      obtain ⟨hq, hrest, hway⟩ := ih h
      refine ⟨hq, List.forall_mem_cons.mpr ⟨hfits, hrest⟩, fun hq => ?_⟩
      exact List.forall_mem_cons.mpr ⟨hfolder, hway hq⟩

/-- Segments lead through folders. -/
theorem enter_way (hfits : ∀ s ∈ segments, Fits s) (h : ∀ p ∈ way place segments, d.isFolder p) :
    segments.foldlM d.enter place = .ok (arrive place segments) := by
  induction segments generalizing place with
  | nil => rfl
  | cons s segments ih =>
    rw [List.forall_mem_cons] at hfits
    obtain ⟨hplace, hway⟩ := List.forall_mem_cons.mp h
    have hnext := hway _ (mem_way_self (advance place s) segments)
    have hs : d.enter place s = .ok (advance place s) := by
      refine enter_eq_ok_iff.mpr ⟨hplace, hfits.1, rfl, ?_⟩
      by_cases hup : s = ['.', '.']
      · exact .inl hup
      · rw [advance, if_neg hup] at hnext
        exact .inr (isThere_of_isFolder hnext)
    rw [List.foldlM_cons, hs]
    exact ih hfits.2 hway

/-- Where no file is in the way, segments lead through folders or to nothing. -/
theorem way_or_notFound (hfits : ∀ s ∈ segments, Fits s)
    (hfiles : ∀ p ∈ way place segments, ¬ d.isFile p) (hplace : d.isFolder place) :
    (∀ p ∈ way place segments, d.isFolder p) ∨
      segments.foldlM d.enter place = .error .notFound := by
  induction segments generalizing place with
  | nil => exact .inl (by simpa [way] using hplace)
  | cons s segments ih =>
    rw [List.forall_mem_cons] at hfits
    obtain ⟨-, hfiles⟩ := List.forall_mem_cons.mp hfiles
    have hnext := hfiles _ (mem_way_self (advance place s) segments)
    by_cases hfolder : d.isFolder (advance place s)
    · refine (ih hfits.2 hfiles hfolder).imp (fun hway => ?_) fun hnone => ?_
      · exact List.forall_mem_cons.mpr ⟨hplace, hway⟩
      · have hs : d.enter place s = .ok (advance place s) := by
          refine enter_eq_ok_iff.mpr ⟨hplace, hfits.1, rfl, ?_⟩
          by_cases hup : s = ['.', '.']
          · exact .inl hup
          · rw [advance, if_neg hup] at hfolder
            exact .inr (isThere_of_isFolder hfolder)
        rw [List.foldlM_cons, hs]
        exact hnone
    · have hup : s ≠ ['.', '.'] := by
        rintro rfl
        exact hfolder (isFolder_of_isPrefix hplace (List.dropLast_prefix place) hnext)
      have hshort : ¬ nameLimit < byteLength s := Nat.not_lt.mpr (hfits.1.resolve_left hup)
      rw [advance, if_neg hup] at hfolder hnext
      have hthere : ¬ d.isThere (place ++ [s]) := fun h => hfolder (isFolder_of_isThere h hnext)
      refine .inr ?_
      rw [List.foldlM_cons, enter]
      simp only [hplace, hup, hshort, hthere]
      rfl

end Folders

/-! ## Locating paths -/

section Locate

variable {d : Disk} {place : Place} {path : Text}

theorem follow_eq (d : Disk) (place : Place) (segments : List Text) :
    d.follow place segments = (segments.filter (!Path.isIdle ·)).foldlM d.enter place := rfl

theorem accepts_eq_ok_iff :
    d.accepts path = .ok () ↔
      '\x00' ∉ path ∧ path ≠ [] ∧ ¬ d.pathLimit.any (· ≤ byteLength path) := by
  rw [accepts]
  split
  · simp [*]
  split
  · simp [*]
  split <;> simp [*]

theorem locate_eq_ok_iff :
    d.locate path = .ok place ↔ d.accepts path = .ok () ∧
      (Path.steps path).foldlM d.enter (d.start path) = .ok place ∧
      ((split '/' path).getLast?.any Path.isIdle → d.isFolder place) := by
  have hfollow : d.follow (d.start path) (split '/' path) =
      (Path.steps path).foldlM d.enter (d.start path) := rfl
  simp only [locate, hfollow]
  cases d.accepts path with
  | error e => simp [Bind.bind, Except.bind]
  | ok u =>
    cases (Path.steps path).foldlM d.enter (d.start path) with
    | error e => simp [Bind.bind, Except.bind]
    | ok p =>
      by_cases hplace : p = place
      · subst hplace
        by_cases hidle : (split '/' path).getLast?.any Path.isIdle
        · by_cases hfolder : d.isFolder p <;> simp [Bind.bind, Except.bind, hidle, hfolder]
        · simp [Bind.bind, Except.bind, hidle]
      · have hends : ∀ b : Bool,
            (if b then Except.error SystemError.notAFolder else .ok p) ≠ .ok place := by
          rintro (_ | _) heq
          · exact hplace (Except.ok.inj heq)
          · cases heq
        exact iff_of_false (hends _) fun h => hplace (Except.ok.inj h.2.1)

/-- A path leads to its destination or nowhere. -/
theorem eq_destination (h : d.locate path = .ok place) : place = d.destination path :=
  (of_enter_eq_ok (locate_eq_ok_iff.mp h).2.1).1

/-- A path leads to a folder if all on its way are folders. -/
theorem hasFolder_iff :
    d.hasFolder path ↔ d.accepts path = .ok () ∧ (∀ s ∈ Path.steps path, Fits s) ∧
      ∀ p ∈ way (d.start path) (Path.steps path), d.isFolder p := by
  constructor
  · intro h
    rw [hasFolder] at h
    split at h
    · rename_i place hplace
      obtain ⟨haccepts, hsteps, -⟩ := locate_eq_ok_iff.mp hplace
      obtain ⟨-, hfits, hway⟩ := of_enter_eq_ok hsteps
      exact ⟨haccepts, hfits, hway h⟩
    · cases h
  · rintro ⟨haccepts, hfits, hway⟩
    have hlast := hway _ (arrive_mem_way (d.start path) (Path.steps path))
    have hplace := locate_eq_ok_iff.mpr ⟨haccepts, enter_way hfits hway, fun _ => hlast⟩
    rw [hasFolder, hplace]
    exact hlast

theorem read_eq_ok_iff {t : Text} :
    d.read path = .ok t ↔
      ∃ place, d.locate path = .ok place ∧ d.content? place = some (.text t) := by
  rw [read]
  cases d.locate path with
  | error e => simp [Bind.bind, Except.bind]
  | ok place =>
    simp only [Bind.bind, Except.bind]
    cases hcontent : d.content? place with
    | none => simp [hcontent]
    | some c => cases c <;> simp [hcontent]

end Locate

/-! ## Disks with more on them -/

/-- The disk `e` has all the folders and files of `d` at their places. -/
structure Extends (d e : Disk) : Prop where
  home_eq : e.home = d.home
  pathLimit_eq : e.pathLimit = d.pathLimit
  isFolder : ∀ p, d.isFolder p → e.isFolder p
  isFile : ∀ p, d.isFile p → e.isFile p

namespace Extends

variable {d e : Disk} {path : Text} {place : Place}

theorem isThere (h : d.Extends e) {p : Place} (hp : d.isThere p) : e.isThere p := by
  rw [Disk.isThere, Bool.or_eq_true] at hp ⊢
  exact hp.imp (h.isFile p) (h.isFolder p)

theorem start_eq (h : d.Extends e) (path : Text) : e.start path = d.start path := by
  rw [start, start, h.home_eq]

theorem accepts_eq (h : d.Extends e) (path : Text) : e.accepts path = d.accepts path := by
  rw [accepts, accepts, h.pathLimit_eq]

theorem destination_eq (h : d.Extends e) (path : Text) :
    e.destination path = d.destination path := by
  rw [destination, destination, h.start_eq]

/-- What a path led to it still leads to. -/
theorem locate (h : d.Extends e) (hpath : d.locate path = .ok place) :
    e.locate path = .ok place := by
  obtain ⟨haccepts, hsteps, hidle⟩ := locate_eq_ok_iff.mp hpath
  have henter : ∀ (segments : List Text) (p : Place), segments.foldlM d.enter p = .ok place →
      segments.foldlM e.enter p = .ok place := by
    intro segments
    induction segments with
    | nil => exact fun p hp => hp
    | cons s segments ih =>
      intro p hp
      rw [List.foldlM_cons] at hp ⊢
      cases hs : d.enter p s with
      | error e => rw [hs] at hp; cases hp
      | ok q =>
        rw [hs] at hp
        obtain ⟨hfolder, hfits, rfl, hthere⟩ := enter_eq_ok_iff.mp hs
        have hs' : e.enter p s = .ok (advance p s) :=
          enter_eq_ok_iff.mpr ⟨h.isFolder p hfolder, hfits, rfl, hthere.imp_right h.isThere⟩
        rw [hs']
        exact ih _ hp
  refine locate_eq_ok_iff.mpr ⟨(h.accepts_eq path).trans haccepts, ?_, ?_⟩
  · rw [h.start_eq]
    exact henter _ _ hsteps
  · exact fun hlast => h.isFolder place (hidle hlast)

end Extends

end Disk

end ScopedStyles
