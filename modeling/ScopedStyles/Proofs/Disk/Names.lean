import ScopedStyles.Proofs.Disk.Paths

/-!
# Names

A place is made up of names (`Disk.isName_of_mem_destination`), and a path that is made up of names
leads from one to the next. Behind a folder a path leads on from there (`Disk.destination_join`).
-/

namespace ScopedStyles

open Text

namespace Path

variable {path folder : Text}

/-! ## Names -/

/-- What a file or folder can be called. -/
structure IsName (name : Text) : Prop where
  not_isIdle : ¬ isIdle name
  not_up : name ≠ ['.', '.']
  no_slash : '/' ∉ name

theorem IsName.ne_nil {name : Text} (h : IsName name) : name ≠ [] := by
  rintro rfl
  exact h.not_isIdle rfl

/-- A segment that leads somewhere is a name, or leads back. -/
theorem isName_of_mem_steps {s : Text} (h : s ∈ steps path) (hup : s ≠ ['.', '.']) : IsName s := by
  obtain ⟨hmem, hidle⟩ := List.mem_filter.mp h
  exact ⟨by simpa using hidle, hup, not_mem_of_mem_split hmem⟩

/-- A path of names leads from one to the next. -/
theorem steps_intercalate {names : List Text} (hne : names ≠ []) (h : ∀ n ∈ names, IsName n) :
    steps (['/'].intercalate names) = names := by
  rw [steps, split_intercalate hne fun n hn => (h n hn).no_slash]
  exact List.filter_eq_self.mpr fun n hn => by simpa using (h n hn).not_isIdle

theorem not_isAbsolute_intercalate {names : List Text} (hne : names ≠ [])
    (h : ∀ n ∈ names, IsName n) : ¬ isAbsolute (['/'].intercalate names) := by
  rw [isAbsolute_iff, split_intercalate hne fun n hn => (h n hn).no_slash]
  rintro ⟨rest, -, hrest⟩
  exact (h [] (hrest ▸ List.mem_cons_self)).not_isIdle rfl

/-! ## Joined paths -/

theorem steps_append_slash (folder path : Text) :
    steps (folder ++ '/' :: path) = steps folder ++ steps path := by
  rw [steps, split_append_separator, List.filter_append]
  rfl

/-- A path behind a folder leads as far as the folder and then on. -/
theorem steps_join (folder : Text) (hpath : ¬ isAbsolute path) :
    steps (join folder path) = steps folder ++ steps path := by
  rw [join, if_neg hpath]
  split
  · rename_i hlast
    rw [List.getLast?_eq_none_iff.mp hlast]
    rfl
  · rename_i hlast
    obtain ⟨before, rfl⟩ := List.getLast?_eq_some_iff.mp hlast
    have hfolder : steps (before ++ ['/']) = steps before := by
      rw [steps_append_slash]
      exact List.append_nil _
    rw [hfolder, List.append_assoc]
    exact steps_append_slash before path
  · exact steps_append_slash folder path

theorem isAbsolute_append (hne : folder ≠ []) (t : Text) :
    isAbsolute (folder ++ t) ↔ isAbsolute folder := by
  obtain ⟨c, folder, rfl⟩ := List.exists_cons_of_ne_nil hne
  simp [isAbsolute]

theorem isAbsolute_join (hpath : ¬ isAbsolute path) :
    isAbsolute (join folder path) ↔ isAbsolute folder := by
  rw [join, if_neg hpath]
  have hne : folder.getLast? ≠ none → folder ≠ [] := fun hlast hnil => hlast (hnil ▸ rfl)
  split
  · rename_i hlast
    rw [List.getLast?_eq_none_iff.mp hlast]
    exact iff_of_false hpath nofun
  · rename_i hlast
    exact isAbsolute_append (hne (hlast ▸ nofun)) _
  · rename_i hlast
    exact isAbsolute_append (hne (hlast ▸ nofun)) _

/-! ## Paths to files -/

/-- The last segment of a path can be the name of a file. -/
def NamesFile (path : Text) : Prop :=
  ∃ name below, (split '/' path).reverse = name :: below ∧ ¬ isIdle name ∧ name ≠ ['.', '.']

/-- The last segment is empty only in front of nothing or behind a slash. -/
theorem last_ne_nil {last : Text} {below : List Text} (h : (split '/' path).reverse = last :: below)
    (hne : path ≠ []) (hslash : path.getLast? ≠ some '/') : last ≠ [] := by
  rintro rfl
  have hsplit : split '/' path = below.reverse ++ [[]] := by
    rw [← List.reverse_reverse (split '/' path), h, List.reverse_cons]
  have hpath := intercalate_split '/' path
  rw [hsplit] at hpath
  by_cases hbelow : below = []
  · subst hbelow
    exact hne hpath.symm
  · rw [intercalate_append (List.reverse_ne_nil_iff.mpr hbelow) (List.cons_ne_nil [] [])] at hpath
    refine hslash ?_
    rw [← hpath]
    simp

/-- A path that ends with the name of a file does not end with a slash. -/
theorem getLast?_ne_slash {last : Text} {below : List Text}
    (h : (split '/' path).reverse = last :: below) (hlast : last ≠ []) :
    path.getLast? ≠ some '/' := by
  have hsplit : split '/' path = below.reverse ++ [last] := by
    rw [← List.reverse_reverse (split '/' path), h, List.reverse_cons]
  have hmem : '/' ∉ last := by
    refine not_mem_of_mem_split (t := path) ?_
    rw [hsplit]
    exact List.mem_append_right _ List.mem_cons_self
  obtain ⟨x, hx⟩ := exists_intercalate_append ['/'] below.reverse last
  rw [← hsplit, intercalate_split] at hx
  rw [hx, List.getLast?_append]
  intro hslash
  cases hend : last.getLast? with
  | none => exact hlast (List.getLast?_eq_none_iff.mp hend)
  | some c =>
    rw [hend, Option.some_or] at hslash
    exact hmem (Option.some.inj hslash ▸ List.mem_of_getLast? hend)

/-- The steps of a path that names a file. -/
theorem NamesFile.exists_steps (h : NamesFile path) :
    ∃ name below, (split '/' path).reverse.dropWhile (·.isEmpty) = name :: below ∧
      (split '/' path).reverse = name :: below ∧ ¬ isIdle name ∧ name ≠ ['.', '.'] ∧
      steps path = below.reverse.filter (!isIdle ·) ++ [name] := by
  obtain ⟨name, below, hreverse, hidle, hup⟩ := h
  have hne : ¬ name.isEmpty := fun hempty => hidle (by simp [isIdle, List.isEmpty_iff.mp hempty])
  have hdrop : (split '/' path).reverse.dropWhile (·.isEmpty) = name :: below := by
    rw [hreverse, List.dropWhile_cons_of_neg hne]
  refine ⟨name, below, hdrop, hreverse, hidle, hup, ?_⟩
  rw [steps_of_dropWhile hdrop, List.filter_append, List.filter_cons_of_pos (by simpa using hidle)]
  rfl

/-- A path that names a file has a parent. -/
theorem NamesFile.exists_parent (h : NamesFile path) :
    ∃ parent, parent? path = some parent ∧ IsParent parent path := by
  obtain ⟨name, below, hreverse, hidle, -⟩ := h
  have hparent : ∃ parent, parent? path = some parent := by
    rw [parent?, hreverse, dropIdle_of_not_isIdle hidle]
    cases below with
    | nil =>
      have hname : name ≠ [] := by
        rintro rfl
        exact hidle rfl
      exact ⟨[], if_neg hname⟩
    | cons x xs =>
      simp only
      split <;> exact ⟨_, rfl⟩
  obtain ⟨parent, hparent⟩ := hparent
  exact ⟨parent, hparent, isParent_of_parent? hparent⟩

end Path

namespace Disk

variable {d : Disk} {place : Place} {path folder : Text}

/-- Names lead on from folder to folder. -/
theorem arrive_names (place : Place) {names : List Text} (h : ∀ n ∈ names, n ≠ ['.', '.']) :
    arrive place names = place ++ names := by
  induction names generalizing place with
  | nil => exact (List.append_nil place).symm
  | cons n names ih =>
    rw [List.forall_mem_cons] at h
    rw [arrive, List.foldl_cons, advance, if_neg h.1]
    exact (ih (place ++ [n]) h.2).trans (List.append_cons place n names).symm

/-- The names of a place come from where the path starts and from the path. -/
theorem mem_arrive {n : Text} {segments : List Text} (h : n ∈ arrive place segments) :
    n ∈ place ∨ n ∈ segments ∧ n ≠ ['.', '.'] := by
  induction segments generalizing place with
  | nil => exact .inl h
  | cons s segments ih =>
    rcases ih h with h | ⟨h, hup⟩
    · rw [advance] at h
      split at h
      · exact .inl (List.mem_of_mem_dropLast h)
      · rename_i hup
        refine (List.mem_append.mp h).imp_right fun h => ?_
        obtain rfl := List.mem_singleton.mp h
        exact ⟨List.mem_cons_self, hup⟩
    · exact .inr ⟨List.mem_cons_of_mem s h, hup⟩

/-- A path leads to a place of names, if the working folder is one. -/
theorem isName_of_mem_destination (hhome : ∀ n ∈ d.home, Path.IsName n) {n : Text}
    (h : n ∈ d.destination path) : Path.IsName n := by
  rcases mem_arrive h with h | ⟨h, hup⟩
  · rw [start] at h
    split at h
    · cases h
    · exact hhome n h
  · exact Path.isName_of_mem_steps h hup

/-- A path behind a folder leads on from there. -/
theorem destination_join (d : Disk) (folder : Text) (hpath : ¬ Path.isAbsolute path) :
    d.destination (Path.join folder path) = arrive (d.destination folder) (Path.steps path) := by
  have hstart : d.start (Path.join folder path) = d.start folder := by
    rw [start, start]
    exact if_congr (Path.isAbsolute_join hpath) rfl rfl
  rw [destination, hstart, Path.steps_join folder hpath, arrive_append, destination]

end Disk

end ScopedStyles
