import ScopedStyles.Proofs.Disk.Paths

/-!
# Creating folders

A folder is created with all that is missing on the way to it. This adds places on the way and
nothing else, and it succeeds as long as no file is in the way (`Disk.exists_createFolders`).
-/

namespace ScopedStyles

open Text

namespace Disk

variable {d d' : Disk} {place p q : Place} {path parent name : Text}

/-! ## Disks with more folders -/

/-- The disk `d'` has more folders than `d`, all of them among `places`. -/
def AddsFolders (d d' : Disk) (places : List Place) : Prop :=
  ∃ new, d' = { d with folders := d.folders ++ new } ∧ ∀ p ∈ new, p ∈ places

namespace AddsFolders

variable {places places' : List Place}

theorem refl (d : Disk) (places : List Place) : d.AddsFolders d places :=
  ⟨[], by simp, by simp⟩

theorem trans {e : Disk} (h : d.AddsFolders e places) (h' : e.AddsFolders d' places) :
    d.AddsFolders d' places := by
  obtain ⟨new, rfl, hnew⟩ := h
  obtain ⟨new', rfl, hnew'⟩ := h'
  refine ⟨new ++ new', by simp, fun p hp => ?_⟩
  exact (List.mem_append.mp hp).elim (hnew p) (hnew' p)

theorem mono (h : d.AddsFolders d' places) (hsub : ∀ p ∈ places, p ∈ places') :
    d.AddsFolders d' places' := by
  obtain ⟨new, rfl, hnew⟩ := h
  exact ⟨new, rfl, fun p hp => hsub p (hnew p hp)⟩

theorem content?_eq (h : d.AddsFolders d' places) (q : Place) : d'.content? q = d.content? q := by
  obtain ⟨new, rfl, -⟩ := h
  rfl

theorem isFile_eq (h : d.AddsFolders d' places) (q : Place) : d'.isFile q = d.isFile q := by
  rw [isFile, h.content?_eq, isFile]

theorem start_eq (h : d.AddsFolders d' places) (path : Text) : d'.start path = d.start path := by
  obtain ⟨new, rfl, -⟩ := h
  rfl

theorem accepts_eq (h : d.AddsFolders d' places) (path : Text) :
    d'.accepts path = d.accepts path := by
  obtain ⟨new, rfl, -⟩ := h
  rfl

theorem mem_places (h : d.AddsFolders d' places) (hq : q ∈ d'.places) :
    q ∈ d.places ∨ q ∈ places := by
  obtain ⟨new, rfl, hnew⟩ := h
  simp only [Disk.places, List.mem_cons, List.mem_append] at hq ⊢
  rcases hq with hq | (hq | hq) | hq
  · exact .inl (.inl hq)
  · exact .inl (.inr (.inl hq))
  · exact .inr (hnew q hq)
  · exact .inl (.inr (.inr hq))

theorem isFolder (h : d.AddsFolders d' places) (hq : d.isFolder q) : d'.isFolder q := by
  obtain ⟨hfile, hroot⟩ := isFolder_iff.mp hq
  refine isFolder_iff.mpr ⟨by rwa [h.isFile_eq], hroot.imp_right ?_⟩
  rintro ⟨p, hp, hpre⟩
  obtain ⟨new, rfl, -⟩ := h
  refine ⟨p, ?_, hpre⟩
  simp only [Disk.places, List.mem_cons, List.mem_append] at hp ⊢
  tauto

theorem extension (h : d.AddsFolders d' places) : d.Extends d' := by
  have hfolder : ∀ q, d.isFolder q → d'.isFolder q := fun q hq => h.isFolder hq
  have hfile : ∀ q, d.isFile q → d'.isFile q := fun q hq => by rwa [h.isFile_eq]
  obtain ⟨new, rfl, -⟩ := h
  exact ⟨rfl, rfl, hfolder, hfile⟩

end AddsFolders

/-! ## The last step of a path -/

theorem locateLast_eq (haccepts : d.accepts path = .ok ()) :
    d.locateLast path =
      match (split '/' path).reverse.dropWhile (·.isEmpty) with
      | [] => .ok none
      | last :: below =>
        match (below.reverse.filter (!Path.isIdle ·)).foldlM d.enter (d.start path) with
        | .error e => .error e
        | .ok place =>
          if d.isFolder place then .ok (some (place, last)) else .error .notAFolder := by
  rw [locateLast, haccepts]
  simp only [Bind.bind, Except.bind]
  cases (split '/' path).reverse.dropWhile (·.isEmpty) with
  | nil => rfl
  | cons last below =>
    simp only [follow_eq]
    cases (below.reverse.filter (!Path.isIdle ·)).foldlM d.enter (d.start path) <;> rfl

theorem accepts_of_locateLast {found : Option (Place × Text)} (h : d.locateLast path = .ok found) :
    d.accepts path = .ok () := by
  rw [locateLast] at h
  cases haccepts : d.accepts path with
  | error e => rw [haccepts] at h; cases h
  | ok u => rfl

/-- The last step of a path is taken from a folder, which is behind all steps before it. -/
theorem of_locateLast (h : d.locateLast path = .ok (some (place, name))) :
    ∃ below, (split '/' path).reverse.dropWhile (·.isEmpty) = name :: below ∧
      place = arrive (d.start path) (below.reverse.filter (!Path.isIdle ·)) ∧
      (∀ s ∈ below.reverse.filter (!Path.isIdle ·), Fits s) ∧
      ∀ p ∈ way (d.start path) (below.reverse.filter (!Path.isIdle ·)), d.isFolder p := by
  rw [locateLast_eq (accepts_of_locateLast h)] at h
  split at h
  · cases h
  · rename_i last below hdrop
    split at h
    · cases h
    · rename_i p hp
      split at h
      · rename_i hfolder
        obtain ⟨rfl, rfl⟩ := Prod.mk.inj (Option.some.inj (Except.ok.inj h))
        obtain ⟨hplace, hfits, hway⟩ := of_enter_eq_ok hp
        exact ⟨below, hdrop, hplace, hfits, hway hfolder⟩
      · cases h

/-- The last step of a path leads from the folder it is taken from to the destination, if it is a
name that is not too long. -/
theorem of_locateLast_of_not_idle (h : d.locateLast path = .ok (some (place, name)))
    (hpoint : name ≠ ['.']) (hup : name ≠ ['.', '.']) (hlong : ¬ nameLimit < byteLength name) :
    ¬ Path.isIdle name ∧ Path.steps path = (Path.steps path).dropLast ++ [name] ∧
      d.destination path = place ++ [name] ∧ (∀ s ∈ Path.steps path, Fits s) ∧
      ∀ p ∈ way (d.start path) (Path.steps path).dropLast, d.isFolder p := by
  obtain ⟨below, hdrop, hplace, hfits, hway⟩ := of_locateLast h
  have hidle : ¬ Path.isIdle name := by
    simp [Path.isIdle, Path.ne_nil_of_dropWhile hdrop, hpoint]
  have hsteps : Path.steps path = below.reverse.filter (!Path.isIdle ·) ++ [name] := by
    rw [Path.steps_of_dropWhile hdrop, List.filter_append,
      List.filter_cons_of_pos (by simpa using hidle)]
    rfl
  rw [destination, hsteps, List.dropLast_concat, arrive_append, ← hplace]
  refine ⟨hidle, rfl, if_neg hup, fun s hs => ?_, hway⟩
  rcases List.mem_append.mp hs with hs | hs
  · exact hfits s hs
  · rw [List.mem_singleton.mp hs]
    exact .inr (Nat.not_lt.mp hlong)

/-! ## Creating one folder -/

/-- A folder that is created was not there, and all on the way to it was. -/
theorem of_createFolder (h : d.createFolder path = .ok d') :
    d.accepts path = .ok () ∧ (∀ s ∈ Path.steps path, Fits s) ∧
      (∃ init name, Path.steps path = init ++ [name] ∧
        ∀ p ∈ way (d.start path) init, d.isFolder p) ∧
      ¬ d.isThere (d.destination path) ∧
      d' = { d with folders := d.folders ++ [d.destination path] } := by
  rw [createFolder] at h
  cases hlast : d.locateLast path with
  | error e => rw [hlast] at h; cases h
  | ok found =>
    rw [hlast] at h
    cases found with
    | none => cases h
    | some found =>
      obtain ⟨place, name⟩ := found
      simp only [Bind.bind, Except.bind] at h
      split at h
      · cases h
      split at h
      · cases h
      split at h
      · cases h
      rename_i hname hlong hthere
      rw [not_or] at hname
      obtain ⟨-, hsteps, hdestination, hfits, hway⟩ :=
        of_locateLast_of_not_idle hlast hname.1 hname.2 hlong
      rw [hdestination]
      exact ⟨accepts_of_locateLast hlast, hfits, ⟨_, name, hsteps, hway⟩, hthere,
        (Except.ok.inj h).symm⟩

theorem destination_mem_way (d : Disk) (path : Text) :
    d.destination path ∈ way (d.start path) (Path.steps path) := arrive_mem_way _ _

theorem addsFolders_of_createFolder (h : d.createFolder path = .ok d') :
    d.AddsFolders d' (way (d.start path) (Path.steps path)) := by
  obtain ⟨-, -, -, -, rfl⟩ := of_createFolder h
  refine ⟨_, rfl, fun p hp => ?_⟩
  rw [List.mem_singleton.mp hp]
  exact destination_mem_way d path

theorem hasFolder_of_createFolder (h : d.createFolder path = .ok d') : d'.hasFolder path := by
  have hadds := addsFolders_of_createFolder h
  obtain ⟨haccepts, hfits, ⟨init, name, hsteps, hway⟩, hthere, hd'⟩ := of_createFolder h
  refine hasFolder_iff.mpr ⟨(hadds.accepts_eq path).trans haccepts, hfits, fun p hp => ?_⟩
  rw [hadds.start_eq, hsteps, way_concat] at hp
  rcases List.mem_append.mp hp with hp | hp
  · exact hadds.isFolder (hway p hp)
  · have hp : p = d.destination path := by
      rw [List.mem_singleton.mp hp, destination, hsteps, arrive_append]
      rfl
    have hfile : ¬ d.isFile p := fun hfile => hthere (by simp [← hp, isThere, hfile])
    refine isFolder_iff.mpr ⟨by rwa [hadds.isFile_eq], .inr ⟨p, ?_, List.prefix_refl p⟩⟩
    rw [hd', places, hp]
    simp

/-! ## Creating what is missing on the way -/

theorem start_eq_of_isParent (d : Disk) (h : Path.IsParent parent path) :
    d.start parent = d.start path := by
  rw [start, start]
  exact if_congr h.isAbsolute_iff rfl rfl

/-- What is on the way to the parent is on the way to a path. -/
theorem mem_way_of_isParent (h : Path.IsParent parent path)
    (hp : p ∈ way (d.start parent) (Path.steps parent)) :
    p ∈ way (d.start path) (Path.steps path) := by
  rw [start_eq_of_isParent d h, h.steps_eq] at hp
  exact way_dropLast_subset _ _ hp

/-- Folders are added on the way to a path, and then it leads to a folder. -/
theorem of_createFoldersWithin {n : Nat} (h : d.createFoldersWithin n path = .ok d') :
    d.AddsFolders d' (way (d.start path) (Path.steps path)) ∧
      (path ≠ [] → d'.hasFolder path) := by
  induction n generalizing path d' with
  | zero => cases h
  | succ n ih =>
    rw [createFoldersWithin] at h
    split at h
    · rename_i hnil
      obtain rfl := Except.ok.inj h
      exact ⟨.refl d _, fun hne => absurd hnil hne⟩
    split at h
    · rename_i hcreate
      obtain rfl := Except.ok.inj h
      exact ⟨addsFolders_of_createFolder hcreate, fun _ => hasFolder_of_createFolder hcreate⟩
    · split at h
      · cases h
      rename_i parent hparent
      have hparent := Path.isParent_of_parent? hparent
      split at h
      · cases h
      rename_i e he
      obtain ⟨hadds, -⟩ := ih he
      have hadds := hadds.mono fun p hp => mem_way_of_isParent hparent hp
      split at h
      · rename_i hcreate
        obtain rfl := Except.ok.inj h
        have hadds' := addsFolders_of_createFolder hcreate
        rw [hadds.start_eq] at hadds'
        exact ⟨hadds.trans hadds', fun _ => hasFolder_of_createFolder hcreate⟩
      · split at h
        · rename_i hfolder
          obtain rfl := Except.ok.inj h
          exact ⟨hadds, fun _ => hfolder⟩
        · cases h
    · split at h
      · rename_i hfolder
        obtain rfl := Except.ok.inj h
        exact ⟨.refl d _, fun _ => hfolder⟩
      · cases h

/-! ## Where no file is in the way -/

/-- A parent that leads somewhere is accepted if the path is. -/
theorem accepts_of_isParent (h : Path.IsParent parent path) (hne : parent ≠ [])
    (haccepts : d.accepts path = .ok ()) : d.accepts parent = .ok () := by
  obtain ⟨hnul, -, hlimit⟩ := accepts_eq_ok_iff.mp haccepts
  have hlen : byteLength parent ≤ byteLength path := by
    obtain ⟨behind, rfl⟩ := h.isPrefix
    rw [byteLength, byteLength, String.ofList_append, String.utf8ByteSize_append]
    exact Nat.le_add_right _ _
  refine accepts_eq_ok_iff.mpr ⟨fun hmem => hnul (h.isPrefix.subset hmem), hne, fun hlong => ?_⟩
  cases hpathLimit : d.pathLimit with
  | none => simp [hpathLimit] at hlong
  | some n =>
    simp only [hpathLimit, Option.any_some, decide_eq_true_eq] at hlong hlimit
    omega

/-- A path that the system takes, with names that are not too long, and no file in the way. -/
structure IsClear (d : Disk) (path : Text) : Prop where
  accepts : d.accepts path = .ok ()
  fits : ∀ s ∈ Path.steps path, Fits s
  not_isFile : ∀ p ∈ way (d.start path) (Path.steps path), ¬ d.isFile p

namespace IsClear

/-- The parent of a path is clear if the path is. -/
theorem of_isParent (h : d.IsClear path) (hparent : Path.IsParent parent path)
    (hne : parent ≠ []) : d.IsClear parent where
  accepts := accepts_of_isParent hparent hne h.accepts
  fits := fun s hs => h.fits s (List.mem_of_mem_dropLast (hparent.steps_eq ▸ hs))
  not_isFile := fun p hp => h.not_isFile p (mem_way_of_isParent hparent hp)

theorem of_addsFolders {places : List Place} (h : d.IsClear path)
    (hadds : d.AddsFolders d' places) : d'.IsClear path where
  accepts := (hadds.accepts_eq path).trans h.accepts
  fits := h.fits
  not_isFile := fun p hp => by
    rw [hadds.isFile_eq]
    exact h.not_isFile p (hadds.start_eq path ▸ hp)

/-- A clear path leads to a folder if all before the last step are folders and something is
there. -/
theorem hasFolder_of_concat {init : List Text} {name : Text} (h : d.IsClear path)
    (hsteps : Path.steps path = init ++ [name]) (hway : ∀ p ∈ way (d.start path) init, d.isFolder p)
    (hlast : name = ['.', '.'] ∨ d.isThere (arrive (d.start path) init ++ [name])) :
    d.hasFolder path := by
  refine hasFolder_iff.mpr ⟨h.accepts, h.fits, fun p hp => ?_⟩
  have hfile := h.not_isFile p hp
  rw [hsteps, way_concat] at hp
  rcases List.mem_append.mp hp with hp | hp
  · exact hway p hp
  · rw [List.mem_singleton.mp hp, advance] at hfile ⊢
    split
    · rename_i hup
      rw [if_pos hup] at hfile
      exact isFolder_of_isPrefix (hway _ (arrive_mem_way _ _)) (List.dropLast_prefix _) hfile
    · rename_i hup
      rw [if_neg hup] at hfile
      exact isFolder_of_isThere (hlast.resolve_left hup) hfile

theorem hasFolder_of_nil (h : d.IsClear path) (hsteps : Path.steps path = []) :
    d.hasFolder path := by
  refine hasFolder_iff.mpr ⟨h.accepts, h.fits, fun p hp => ?_⟩
  have hfile := h.not_isFile p hp
  rw [hsteps, way, List.mem_singleton] at hp
  rw [hp] at hfile ⊢
  exact isFolder_start hfile

/-- A folder at the end of a clear path is created, unless it is there. -/
theorem createFolder (h : d.IsClear path) (htrimmed : Path.IsTrimmed path)
    (hway : ∀ p ∈ way (d.start path) (Path.steps path).dropLast, d.isFolder p) :
    (∃ d', d.createFolder path = .ok d') ∨
      d.createFolder path = .error .alreadyExists ∧ d.hasFolder path := by
  rw [Disk.createFolder, locateLast_eq h.accepts]
  cases hdrop : (split '/' path).reverse.dropWhile (·.isEmpty) with
  | nil => exact .inr ⟨rfl, h.hasFolder_of_nil (Path.steps_of_dropWhile_eq_nil hdrop)⟩
  | cons name below =>
    have hsteps := Path.steps_of_dropWhile hdrop
    by_cases hidle : Path.isIdle name
    · -- only a point can be idle here, and it is all there is
      obtain rfl := htrimmed name below hdrop hidle
      have hpoint : name = ['.'] := by
        simpa [Path.isIdle, Path.ne_nil_of_dropWhile hdrop] using hidle
      rw [hpoint] at hsteps
      have hnil : Path.steps path = [] := hsteps
      have hstart : d.isFolder (d.start path) := hway _ (mem_way_self _ _)
      refine .inr ⟨?_, h.hasFolder_of_nil hnil⟩
      simp [Bind.bind, Except.bind, pure, Except.pure, hstart, hpoint]
    · rw [List.filter_append, List.filter_cons_of_pos (by simpa using hidle)] at hsteps
      have hinit : (Path.steps path).dropLast = below.reverse.filter (!Path.isIdle ·) := by
        rw [hsteps]
        exact List.dropLast_concat
      rw [hinit] at hway
      have hfits : ∀ s ∈ below.reverse.filter (!Path.isIdle ·), Fits s := fun s hs =>
        h.fits s (hsteps ▸ List.mem_append_left _ hs)
      have hplace := hway _ (arrive_mem_way _ _)
      simp only [enter_way hfits hway, hplace, if_true, Bind.bind, Except.bind]
      by_cases hup : name = ['.', '.']
      · refine .inr ⟨?_, h.hasFolder_of_concat hsteps hway (.inl hup)⟩
        rw [if_pos (.inr hup)]
      · have hname : ¬ (name = ['.'] ∨ name = ['.', '.']) := by
          rintro (rfl | hup')
          · exact hidle rfl
          · exact hup hup'
        have hshort : ¬ nameLimit < byteLength name := by
          have hfit := h.fits name (hsteps ▸ List.mem_append_right _ List.mem_cons_self)
          exact Nat.not_lt.mpr (hfit.resolve_left hup)
        rw [if_neg hname, if_neg hshort]
        by_cases hthere :
            d.isThere (arrive (d.start path) (below.reverse.filter (!Path.isIdle ·)) ++ [name])
        · refine .inr ⟨?_, h.hasFolder_of_concat hsteps hway (.inr hthere)⟩
          rw [if_pos hthere]
        · rw [if_neg hthere]
          exact .inl ⟨_, rfl⟩

/-- What is not there has a parent that leads somewhere. -/
theorem exists_parent {e : SystemError} (h : d.IsClear path) (htrimmed : Path.IsTrimmed path)
    (hmissing : (Path.steps path).dropLast.foldlM d.enter (d.start path) = .error e) :
    d.createFolder path = .error e ∧ ∃ parent, Path.parent? path = some parent ∧ parent ≠ [] := by
  have hne : (Path.steps path).dropLast ≠ [] := by
    intro hnil
    rw [hnil] at hmissing
    cases hmissing
  cases hdrop : (split '/' path).reverse.dropWhile (·.isEmpty) with
  | nil => simp [Path.steps_of_dropWhile_eq_nil hdrop] at hne
  | cons name below =>
    have hsteps := Path.steps_of_dropWhile hdrop
    have hidle : ¬ Path.isIdle name := by
      intro hidle
      obtain rfl := htrimmed name below hdrop hidle
      refine hne ?_
      rw [hsteps, List.reverse_nil, List.nil_append, List.filter_singleton, hidle]
      rfl
    rw [List.filter_append, List.filter_cons_of_pos (by simpa using hidle)] at hsteps
    have hinit : (Path.steps path).dropLast = below.reverse.filter (!Path.isIdle ·) := by
      rw [hsteps]
      exact List.dropLast_concat
    have hbelow : below ≠ [] := by
      rintro rfl
      exact hne hinit
    have hlocate : d.locateLast path = .error e := by
      rw [locateLast_eq h.accepts, hdrop]
      simp only
      rw [← hinit, hmissing]
    refine ⟨by rw [Disk.createFolder, hlocate]; rfl, ?_⟩
    have hparent : ∃ parent, Path.parent? path = some parent := by
      rw [Path.parent?, Path.dropIdle_of_dropWhile hdrop hidle]
      obtain ⟨x, xs, rfl⟩ := List.exists_cons_of_ne_nil hbelow
      simp only
      split <;> exact ⟨_, rfl⟩
    obtain ⟨parent, hparent⟩ := hparent
    refine ⟨parent, hparent, ?_⟩
    rintro rfl
    have hnone := (Path.isParent_of_parent? hparent).steps_eq
    exact hne hnone.symm

/-- Whatever is missing on a clear path is created. -/
theorem exists_createFoldersWithin {n : Nat} (h : d.IsClear path) (htrimmed : Path.IsTrimmed path)
    (hn : path.length < n) : ∃ d', d.createFoldersWithin n path = .ok d' := by
  induction n generalizing path with
  | zero => omega
  | succ n ih =>
    obtain ⟨-, hnonempty, -⟩ := accepts_eq_ok_iff.mp h.accepts
    rw [createFoldersWithin, if_neg hnonempty]
    have hstart := h.not_isFile _ (mem_way_self _ _)
    have hfits : ∀ s ∈ (Path.steps path).dropLast, Fits s := fun s hs =>
      h.fits s (List.mem_of_mem_dropLast hs)
    have hfiles : ∀ p ∈ way (d.start path) (Path.steps path).dropLast, ¬ d.isFile p := fun p hp =>
      h.not_isFile p (way_dropLast_subset _ _ hp)
    rcases way_or_notFound hfits hfiles (isFolder_start hstart) with hway | hmissing
    · rcases h.createFolder htrimmed hway with ⟨d', hcreate⟩ | ⟨hcreate, hfolder⟩
      · exact ⟨d', by rw [hcreate]⟩
      · exact ⟨d, by rw [hcreate]; exact if_pos hfolder⟩
    · obtain ⟨hcreate, parent, hparent, hne⟩ := h.exists_parent htrimmed hmissing
      have hisParent := Path.isParent_of_parent? hparent
      obtain ⟨e, he⟩ := ih (h.of_isParent hisParent hne) hisParent.isTrimmed
        (by have := hisParent.length_lt; omega)
      obtain ⟨hadds, hfolder⟩ := of_createFoldersWithin he
      obtain ⟨-, -, hway⟩ := hasFolder_iff.mp (hfolder hne)
      rw [hadds.start_eq, start_eq_of_isParent d hisParent, hisParent.steps_eq,
        ← hadds.start_eq] at hway
      rw [hcreate]
      simp only [hparent, he]
      rcases (h.of_addsFolders hadds).createFolder htrimmed hway with
        ⟨d', hcreate⟩ | ⟨hcreate, hfolder⟩
      · exact ⟨d', by rw [hcreate]⟩
      · exact ⟨e, by rw [hcreate]; exact if_pos hfolder⟩

end IsClear

end Disk

end ScopedStyles
