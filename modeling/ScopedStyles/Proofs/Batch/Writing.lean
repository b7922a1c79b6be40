import ScopedStyles.Batch
import ScopedStyles.Proofs.Disk.Folders
import ScopedStyles.Proofs.Disk.Names

/-!
# Writing output files

A file is written with the folders on the way to it. Whether that succeeds depends on what is in
the way (`Disk.IsWritable`), and then the disk has one file more, or a changed one, and the folders
(`Disk.Wrote`).
-/

namespace ScopedStyles

open Text

namespace Disk

variable {d d' e : Disk} {place p q : Place} {path t : Text}

/-! ## Putting a file -/

theorem lookup_replace (files : List (Place × Content)) (place : Place) (c : Content) (q : Place) :
    (files.map fun file => if file.1 = place then (place, c) else file).lookup q =
      if q = place then (files.lookup q).map fun _ => c else files.lookup q := by
  induction files with
  | nil => simp
  | cons file files ih =>
    obtain ⟨r, old⟩ := file
    rw [List.map_cons]
    by_cases hr : r = place
    · subst hr
      by_cases hq : q = r
      · simp [hq]
      · simp only [if_true, List.lookup_cons, beq_eq_false_iff_ne.mpr hq, hq, if_false]
        rw [ih, if_neg hq]
    · by_cases hq : q = r
      · subst hq
        simp [hr]
      · simp only [hr, if_false, List.lookup_cons, beq_eq_false_iff_ne.mpr hq]
        exact ih

theorem content?_put (d : Disk) (place : Place) (t : Text) (q : Place) :
    (d.put place t).content? q = if q = place then some (.text t) else d.content? q := by
  by_cases hfile : d.isFile place
  · have hput : (d.put place t).content? q =
        if q = place then (d.content? q).map fun _ => .text t else d.content? q := by
      rw [content?, put]
      simp only [hfile, if_true]
      exact lookup_replace d.files place (.text t) q
    rw [hput]
    by_cases hq : q = place
    · obtain ⟨c, hc⟩ := Option.isSome_iff_exists.mp hfile
      rw [if_pos hq, if_pos hq, hq, hc]
      rfl
    · rw [if_neg hq, if_neg hq]
  · have hnone : d.content? place = none := by simpa [isFile] using hfile
    rw [content?, put]
    simp only [hfile, Bool.false_eq_true, if_false, List.lookup_append]
    by_cases hq : q = place
    · subst hq
      rw [if_pos rfl, show d.files.lookup q = none from hnone]
      simp
    · rw [if_neg hq, List.lookup_cons, beq_eq_false_iff_ne.mpr hq]
      exact Option.or_none

theorem isFile_put (d : Disk) (place : Place) (t : Text) (q : Place) :
    (d.put place t).isFile q ↔ q = place ∨ d.isFile q := by
  rw [isFile, content?_put, isFile]
  split <;> simp [*]

theorem mem_places_put {p : Place} (d : Disk) (place : Place) (t : Text) :
    p ∈ (d.put place t).places ↔ p = place ∨ p ∈ d.places := by
  have hfiles : p ∈ (d.put place t).files.map Prod.fst ↔ p = place ∨ p ∈ d.files.map Prod.fst := by
    rw [put]
    by_cases hfile : d.isFile place
    · have hplace : place ∈ d.files.map Prod.fst := by
        rw [isFile, content?] at hfile
        by_contra hnone
        have hlookup : d.files.lookup place = none := by
          refine List.lookup_eq_none_iff.mpr fun file hfile => ?_
          exact bne_iff_ne.mpr fun heq => hnone (List.mem_map.mpr ⟨file, hfile, heq.symm⟩)
        simp [hlookup] at hfile
      have hsame :
          (d.files.map fun file => if file.1 = place then (place, Content.text t) else file).map
            Prod.fst = d.files.map Prod.fst := by
        rw [List.map_map]
        refine List.map_congr_left fun file _ => ?_
        rw [Function.comp_apply]
        split
        · exact (by assumption : file.1 = place).symm
        · rfl
      simp only [hfile, if_true, hsame]
      exact ⟨.inr, fun h => h.elim (· ▸ hplace) id⟩
    · simp only [hfile, Bool.false_eq_true, if_false, List.map_append, List.mem_append,
        List.map_singleton, List.mem_singleton]
      exact or_comm
  rw [places, places, List.mem_cons, List.mem_append, List.mem_cons, List.mem_append, hfiles]
  simp only [put]
  tauto

/-! ## Where a file can be written -/

/-- The folders that a path to a file leads through, with the one that the file is in. -/
def foldersTo (d : Disk) (path : Text) : List Place :=
  way (d.start path) (Path.steps path).dropLast

/-- A file can be written at the path, with the folders on the way to it. -/
structure IsWritable (d : Disk) (path : Text) : Prop where
  accepts : d.accepts path = .ok ()
  names : Path.NamesFile path
  fits : ∀ s ∈ Path.steps path, Fits s
  not_isFile : ∀ p ∈ d.foldersTo path, ¬ d.isFile p
  not_isFolder : ¬ d.isFolder (d.destination path)
  not_mem : d.destination path ∉ d.foldersTo path

/-- The disk `d'` is `d` with a text written at the path. -/
structure Wrote (d : Disk) (path t : Text) (d' : Disk) : Prop where
  home_eq : d'.home = d.home
  pathLimit_eq : d'.pathLimit = d.pathLimit
  content?_eq : ∀ q, d'.content? q =
    if q = d.destination path then some (.text t) else d.content? q
  isFolder_iff : ∀ q, d'.isFolder q ↔ d.isFolder q ∨ q ∈ d.foldersTo path

/-- What is on the way to a place on the way to a file is so too, or was a folder before. -/
theorem mem_foldersTo_of_isPrefix (hp : p ∈ d.foldersTo path) (hq : q <+: p)
    (hfile : ¬ d.isFile q) :
    q ∈ d.foldersTo path ∨ d.isFolder q := by
  refine (mem_way_of_isPrefix hp hq).imp_right fun hstart => ?_
  rw [start] at hstart
  split at hstart
  · exact isFolder_iff.mpr ⟨hfile, .inl (List.prefix_nil.mp hstart)⟩
  · exact isFolder_iff.mpr ⟨hfile, .inr ⟨d.home, List.mem_cons_self, hstart⟩⟩

theorem foldersTo_eq_of_isParent {parent : Text} (d : Disk) (h : Path.IsParent parent path) :
    way (d.start parent) (Path.steps parent) = d.foldersTo path := by
  rw [foldersTo, start_eq_of_isParent d h, h.steps_eq]

namespace AddsFolders

variable {d₁ : Disk}

theorem foldersTo_eq {places : List Place} (h : d.AddsFolders d₁ places) (path : Text) :
    d₁.foldersTo path = d.foldersTo path := by
  rw [foldersTo, foldersTo, h.start_eq]

theorem destination_eq {places : List Place} (h : d.AddsFolders d₁ places) (path : Text) :
    d₁.destination path = d.destination path := by
  rw [destination, destination, h.start_eq]

/-- No other folders have come up than those on the way to the file. -/
theorem isFolder_or (h : d.AddsFolders d₁ (d.foldersTo path)) (hq : d₁.isFolder q) :
    d.isFolder q ∨ q ∈ d.foldersTo path := by
  obtain ⟨hfile, hroot⟩ := isFolder_iff.mp hq
  rw [h.isFile_eq] at hfile
  rcases hroot with hroot | ⟨p, hp, hpre⟩
  · exact .inl (isFolder_iff.mpr ⟨hfile, .inl hroot⟩)
  · rcases h.mem_places hp with hp | hp
    · exact .inl (isFolder_iff.mpr ⟨hfile, .inr ⟨p, hp, hpre⟩⟩)
    · exact (mem_foldersTo_of_isPrefix hp hpre hfile).symm

/-- A text is put at the end of a path whose folders are there. -/
theorem wrote_put (h : d.AddsFolders d₁ (d.foldersTo path))
    (hfolders : ∀ p ∈ d.foldersTo path, d₁.isFolder p)
    (hdestination : ¬ d₁.isFolder (d.destination path))
    (hlast : ∃ p ∈ d.foldersTo path, ∃ name, d.destination path = p ++ [name]) (t : Text) :
    d.Wrote path t (d₁.put (d.destination path) t) where
  home_eq := h.extension.home_eq
  pathLimit_eq := h.extension.pathLimit_eq
  content?_eq := fun q => by rw [content?_put, h.content?_eq]
  isFolder_iff := by
    intro q
    constructor
    · intro hq
      obtain ⟨hfile, hroot⟩ := isFolder_iff.mp hq
      rw [isFile_put, not_or, h.isFile_eq] at hfile
      rcases hroot with hroot | ⟨p, hp, hpre⟩
      · exact .inl (isFolder_iff.mpr ⟨hfile.2, .inl hroot⟩)
      · rcases (mem_places_put d₁ _ t).mp hp with rfl | hp
        · obtain ⟨r, hr, name, hname⟩ := hlast
          rw [hname] at hpre hfile
          have hpre := (List.prefix_concat_iff.mp hpre).resolve_left hfile.1
          exact (mem_foldersTo_of_isPrefix hr hpre hfile.2).symm
        · rw [← h.isFile_eq] at hfile
          exact h.isFolder_or (isFolder_iff.mpr ⟨hfile.2, .inr ⟨p, hp, hpre⟩⟩)
    · intro hq
      have hq : d₁.isFolder q := hq.elim (fun hq => h.isFolder hq) (hfolders q)
      obtain ⟨hfile, hroot⟩ := isFolder_iff.mp hq
      refine isFolder_iff.mpr ⟨?_, hroot.imp_right ?_⟩
      · rw [isFile_put, not_or]
        exact ⟨fun heq => hdestination (heq ▸ hq), hfile⟩
      · rintro ⟨p, hp, hpre⟩
        exact ⟨p, (mem_places_put d₁ _ t).mpr (.inr hp), hpre⟩

end AddsFolders

/-- What a file is written on. -/
theorem of_write (h : d.write path t = .ok d') :
    d.accepts path = .ok () ∧ Path.NamesFile path ∧ (∀ s ∈ Path.steps path, Fits s) ∧
      (∀ p ∈ d.foldersTo path, d.isFolder p) ∧ ¬ d.isFolder (d.destination path) ∧
      d' = d.put (d.destination path) t := by
  rw [write] at h
  cases hlast : d.locateLast path with
  | error e => rw [hlast] at h; cases h
  | ok found =>
    rw [hlast] at h
    cases found with
    | none => cases h
    | some found =>
      obtain ⟨place, name⟩ := found
      simp only [Bind.bind, Except.bind] at h
      split at h
      · cases h
      split at h
      · cases h
      split at h
      · cases h
      rename_i hname hlong hfolder
      simp only [not_or] at hname
      obtain ⟨hslash, hpoint, hup⟩ := hname
      have haccepts := accepts_of_locateLast hlast
      obtain ⟨below, hdrop, -⟩ := of_locateLast hlast
      obtain ⟨hidle, -, hdestination, hfits, hway⟩ :=
        of_locateLast_of_not_idle hlast hpoint hup hlong
      -- the path does not end with a slash, so that nothing is dropped
      have hreverse : (split '/' path).reverse = name :: below := by
        obtain ⟨last, below', hsplit⟩ :=
          List.exists_cons_of_ne_nil (List.reverse_ne_nil_iff.mpr (split_ne_nil '/' path))
        have hne := Path.last_ne_nil hsplit (accepts_eq_ok_iff.mp haccepts).2.1 hslash
        rw [hsplit, List.dropWhile_cons_of_neg (by simpa using hne)] at hdrop
        rw [hsplit, hdrop]
      rw [hdestination]
      exact ⟨haccepts, ⟨name, below, hreverse, hidle, hup⟩, hfits, hway, hfolder,
        (Except.ok.inj h).symm⟩

/-- A file can be written where its folder is. -/
theorem exists_write (haccepts : d.accepts path = .ok ()) (hnames : Path.NamesFile path)
    (hfits : ∀ s ∈ Path.steps path, Fits s) (hfolders : ∀ p ∈ d.foldersTo path, d.isFolder p)
    (hdestination : ¬ d.isFolder (d.destination path)) (t : Text) :
    ∃ d', d.write path t = .ok d' := by
  obtain ⟨name, below, hdrop, hreverse, hidle, hup, hsteps⟩ := hnames.exists_steps
  rw [foldersTo, hsteps, List.dropLast_concat] at hfolders
  have hfits' : ∀ s ∈ below.reverse.filter (!Path.isIdle ·), Fits s := fun s hs =>
    hfits s (hsteps ▸ List.mem_append_left _ hs)
  have hplace := hfolders _ (arrive_mem_way _ _)
  have hlast : d.locateLast path =
      .ok (some (arrive (d.start path) (below.reverse.filter (!Path.isIdle ·)), name)) := by
    rw [locateLast_eq haccepts, hdrop]
    simp only [enter_way hfits' hfolders, hplace, if_true]
  have hname : ¬ (path.getLast? = some '/' ∨ name = ['.'] ∨ name = ['.', '.']) := by
    rintro (hslash | rfl | hup')
    · exact Path.getLast?_ne_slash hreverse (Path.ne_nil_of_dropWhile hdrop) hslash
    · exact hidle rfl
    · exact hup hup'
  have hshort : ¬ nameLimit < byteLength name := by
    have hfit := hfits name (hsteps ▸ List.mem_append_right _ List.mem_cons_self)
    exact Nat.not_lt.mpr (hfit.resolve_left hup)
  have hfolder :
      ¬ d.isFolder (arrive (d.start path) (below.reverse.filter (!Path.isIdle ·)) ++ [name]) := by
    rw [destination, hsteps, arrive_append] at hdestination
    rwa [show arrive _ [name] = _ ++ [name] from if_neg hup] at hdestination
  rw [write, hlast]
  simp only [Bind.bind, Except.bind, if_neg hname, if_neg hshort, if_neg hfolder]
  exact ⟨_, rfl⟩

end Disk

namespace Batch

open Disk

variable {d d' : Disk} {path t : Text}

/-- A file is in the last of the folders on the way to it. -/
theorem exists_destination_eq (d : Disk) (hnames : Path.NamesFile path) :
    ∃ p ∈ d.foldersTo path, ∃ name, d.destination path = p ++ [name] := by
  obtain ⟨name, below, -, -, -, hup, hsteps⟩ := hnames.exists_steps
  rw [foldersTo, destination, hsteps, List.dropLast_concat, arrive_append]
  exact ⟨_, arrive_mem_way _ _, name, if_neg hup⟩

theorem write_of_parent? {folder : Text} (hfolder : Path.parent? path = some folder) :
    write d path t =
      match d.createFolders folder with
      | .error e => .error (.noFolder folder e)
      | .ok d => (d.write path t).mapError (.cannotWrite path) := by
  rw [write, hfolder]
  simp only [Bind.bind, Except.bind]
  cases d.createFolders folder <;> rfl

/-- A file that has been written could be written. -/
theorem wrote_of_write (h : write d path t = .ok d') : d.IsWritable path ∧ d.Wrote path t d' := by
  have hwritten : ∃ d₁, d.AddsFolders d₁ (d.foldersTo path) ∧ d₁.write path t = .ok d' := by
    cases hparent : Path.parent? path with
    | none =>
      refine ⟨d, .refl d _, ?_⟩
      rw [write, hparent] at h
      cases hwrite : d.write path t with
      | error e => simp [hwrite, Bind.bind, Except.bind, Except.mapError] at h
      | ok d₁ => simpa [hwrite, Bind.bind, Except.bind, Except.mapError] using h
    | some folder =>
      rw [write_of_parent? hparent] at h
      cases hcreate : d.createFolders folder with
      | error e => simp [hcreate] at h
      | ok d₁ =>
        have hadds := (of_createFoldersWithin hcreate).1
        rw [foldersTo_eq_of_isParent d (Path.isParent_of_parent? hparent)] at hadds
        refine ⟨d₁, hadds, ?_⟩
        cases hwrite : d₁.write path t with
        | error e => simp [hcreate, hwrite, Except.mapError] at h
        | ok d₂ => simpa [hcreate, hwrite, Except.mapError] using h
  obtain ⟨d₁, hadds, hwrite⟩ := hwritten
  obtain ⟨haccepts, hnames, hfits, hfolders, hdestination, rfl⟩ := of_write hwrite
  rw [hadds.destination_eq] at hdestination ⊢
  rw [hadds.foldersTo_eq] at hfolders
  refine ⟨⟨(hadds.accepts_eq path).symm.trans haccepts, hnames, hfits, fun p hp => ?_,
    fun hfolder => hdestination (hadds.isFolder hfolder),
    fun hmem => hdestination (hfolders _ hmem)⟩,
    hadds.wrote_put hfolders hdestination (exists_destination_eq d hnames) t⟩
  rw [← hadds.isFile_eq]
  exact not_isFile_of_isFolder (hfolders p hp)

/-- A file that can be written is written. -/
theorem exists_write (h : d.IsWritable path) (t : Text) : ∃ d', write d path t = .ok d' := by
  obtain ⟨folder, hparent, hisParent⟩ := h.names.exists_parent
  have hway := foldersTo_eq_of_isParent d hisParent
  have hcreated : ∃ d₁, d.createFolders folder = .ok d₁ ∧ d.AddsFolders d₁ (d.foldersTo path) ∧
      ∀ p ∈ d.foldersTo path, d₁.isFolder p := by
    by_cases hnil : folder = []
    · subst hnil
      refine ⟨d, rfl, .refl d _, fun p hp => ?_⟩
      have hfile := h.not_isFile p hp
      rw [← hway] at hp
      rw [List.mem_singleton.mp hp] at hfile ⊢
      exact isFolder_start hfile
    · have hclear : d.IsClear folder := ⟨accepts_of_isParent hisParent hnil h.accepts, fun s hs =>
        h.fits s (List.mem_of_mem_dropLast (hisParent.steps_eq ▸ hs)), fun p hp =>
        h.not_isFile p (hway ▸ hp)⟩
      obtain ⟨d₁, hcreate⟩ :=
        hclear.exists_createFoldersWithin hisParent.isTrimmed (Nat.lt_succ_self folder.length)
      obtain ⟨hadds, hfolder⟩ := of_createFoldersWithin hcreate
      obtain ⟨-, -, hfolders⟩ := hasFolder_iff.mp (hfolder hnil)
      rw [hadds.start_eq, hway] at hfolders
      rw [hway] at hadds
      exact ⟨d₁, hcreate, hadds, hfolders⟩
  obtain ⟨d₁, hcreate, hadds, hfolders⟩ := hcreated
  have hdestination : ¬ d₁.isFolder (d₁.destination path) := by
    rw [hadds.destination_eq]
    exact fun hfolder => (hadds.isFolder_or hfolder).elim h.not_isFolder h.not_mem
  rw [← hadds.foldersTo_eq] at hfolders
  obtain ⟨d₂, hwrite⟩ := Disk.exists_write ((hadds.accepts_eq path).trans h.accepts) h.names h.fits
    hfolders hdestination t
  refine ⟨d₂, ?_⟩
  rw [write_of_parent? hparent, hcreate]
  simp only [hwrite]
  rfl

end Batch

end ScopedStyles
