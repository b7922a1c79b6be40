import ScopedStyles.Proofs.Batch.Writing
import ScopedStyles.Proofs.Loading.Loads

/-!
# Outputs

What becomes of a stylesheet is its url, the file that it is written to, and the styles
(`Batch.Processed`). Stylesheets at different places have different output files
(`Batch.eq_of_destination_eq`). A disk that other outputs have been written to (`Batch.HasOutputs`)
takes one more as the disk before did, as long as no file of the one is a folder of the other.
-/

namespace ScopedStyles

open Text

/-! ## Names of output files -/

/-- What is added to the url of a stylesheet for the module that holds it. -/
def Compiled.extension (isScoped : Bool) (suffix : Text) : Text :=
  (if isScoped then scopedSuffix else []) ++ suffix

/-- The name of a module is that of the stylesheet with something added. -/
theorem Compiled.moduleUrl_intercalate (names : List Text) (name : Text) (isScoped : Bool)
    (suffix : Text) :
    moduleUrl (['/'].intercalate (names ++ [name])) isScoped suffix =
      ['/'].intercalate (names ++ [name ++ extension isScoped suffix]) := by
  rw [moduleUrl, Dependency.key, extension, ← intercalate_concat_append, ← List.append_assoc]
  cases isScoped <;> simp

theorem Path.IsName.append {name ext : Text} (h : IsName name) (hext : '/' ∉ ext) :
    IsName (name ++ ext) where
  not_isIdle := by
    have hidle := h.not_isIdle
    rcases name with - | ⟨a, - | ⟨b, name⟩⟩
    · exact absurd rfl h.ne_nil
    · simp_all [isIdle]
    · simp [isIdle]
  not_up := by
    have hidle := h.not_isIdle
    have hup := h.not_up
    rcases name with - | ⟨a, - | ⟨b, - | ⟨c, name⟩⟩⟩
    · exact absurd rfl h.ne_nil
    · rintro heq
      obtain ⟨rfl, -⟩ := List.cons.inj heq
      exact hidle rfl
    · rintro heq
      obtain ⟨rfl, hrest⟩ := List.cons.inj heq
      obtain ⟨rfl, -⟩ := List.cons.inj hrest
      exact hup rfl
    · simp
  no_slash := by
    rw [List.mem_append, not_or]
    exact ⟨h.no_slash, hext⟩

namespace Disk

variable {d : Disk} {path t : Text}

/-- A file whose folders are there can be read. -/
theorem IsWritable.read {e : Disk} (h : d.IsWritable path) (hhome : e.home = d.home)
    (hlimit : e.pathLimit = d.pathLimit) (hfolders : ∀ p ∈ d.foldersTo path, e.isFolder p)
    (hcontent : e.content? (d.destination path) = some (.text t)) : e.read path = .ok t := by
  refine read_eq_ok_iff.mpr ⟨d.destination path, ?_, hcontent⟩
  obtain ⟨name, below, -, hreverse, hidle, hup, hsteps⟩ := h.names.exists_steps
  have hfits := h.fits
  have haccepts : e.accepts path = d.accepts path := by
    rw [Disk.accepts, Disk.accepts, hlimit]
  have hstart : e.start path = d.start path := by rw [start, start, hhome]
  have hdestination : d.destination path =
      arrive (d.start path) (below.reverse.filter (!Path.isIdle ·)) ++ [name] := by
    rw [destination, hsteps, arrive_append]
    exact if_neg hup
  rw [foldersTo, hsteps, List.dropLast_concat] at hfolders
  rw [hsteps] at hfits
  have hthere : e.isThere (d.destination path) := by simp [isThere, isFile, hcontent]
  refine locate_eq_ok_iff.mpr ⟨haccepts.trans h.accepts, ?_, fun hlast => ?_⟩
  · have hlast : e.enter (arrive (d.start path) (below.reverse.filter (!Path.isIdle ·))) name =
        .ok (d.destination path) := by
      refine enter_eq_ok_iff.mpr ⟨hfolders _ (arrive_mem_way _ _), ?_, ?_, .inr ?_⟩
      · exact hfits name (List.mem_append_right _ List.mem_cons_self)
      · rw [hdestination]
        exact (if_neg hup).symm
      · rwa [hdestination] at hthere
    have hway := enter_way (fun s hs => hfits s (List.mem_append_left _ hs)) hfolders
    rw [hstart, hsteps, List.foldlM_append, hway]
    simp only [Bind.bind, Except.bind, List.foldlM_cons, List.foldlM_nil, hlast, pure, Except.pure]
  · rw [← List.head?_reverse, hreverse] at hlast
    exact absurd hlast hidle

end Disk

namespace Batch

open Disk

variable {o : Options} {d e e' : Disk} {root place : Place} {path file u : Text} {st st' : State}
  {out : Output} {outs : List Output}

/-! ## Processing a stylesheet -/

theorem placeFrom?_eq_some_iff {names : List Text} :
    placeFrom? root place = some names ↔ place = root ++ names := by
  induction root generalizing place with
  | nil => simp [placeFrom?]
  | cons a root ih =>
    cases place with
    | nil => simp [placeFrom?]
    | cons b place =>
      rw [placeFrom?]
      by_cases hab : a = b
      · simp [hab, ih]
      · simp [hab, Ne.symm hab]

/-- The url of a stylesheet is made up of the names behind the root folder. -/
theorem url_eq_ok_iff :
    url d root path = .ok u ↔
      ∃ names, d.locate path = .ok (root ++ names) ∧ u = ['/'].intercalate names := by
  rw [url]
  cases d.locate path with
  | error e => simp
  | ok place =>
    simp only [Except.ok.injEq, ← placeFrom?_eq_some_iff]
    cases placeFrom? root place with
    | none => simp
    | some names => simp [eq_comm]

/-- What loads the stylesheets of a batch. -/
def loader (o : Options) (d : Disk) (root : Place) : Loader SystemError where
  scope := o.toScope
  source := d.stylesheets root.path

/-- The output file for the stylesheet at a url, if there is a folder for it. -/
def outputPath (o : Options) (url : Text) : Option Text :=
  o.outFolder.map fun folder => Path.join folder (Compiled.moduleUrl url o.isScoped o.suffix)

/-- The stylesheet at `path` is processed, which gives `out` and takes `st` to `st'`. -/
structure Processed (o : Options) (root : Place) (path : Text) (st : State) (out : Output)
    (st' : State) : Prop where
  url_eq : url st.disk root path = .ok out.url
  load_eq : ∃ styles store,
    (loader o st.disk root).load out.url o.isScoped { cache := st.cache } = (.ok styles, store) ∧
      out.css = ['\n'].intercalate styles ∧ st'.cache = store.cache
  path_eq : out.path = outputPath o out.url
  disk_eq : out.path = none → st'.disk = st.disk
  write_eq : ∀ file, out.path = some file → write st.disk file out.css = .ok st'.disk

theorem process_eq_ok_iff :
    process o root path st = (.ok out, st') ↔ Processed o root path st out st' := by
  constructor
  · intro h
    rw [process] at h
    split at h
    · cases h
    rename_i u hurl
    cases hload : (loader o st.disk root).load u o.isScoped { cache := st.cache } with
    | mk result store =>
      rw [loader] at hload
      simp only [hload] at h
      cases result with
      | error e => cases h
      | ok styles =>
        cases hfolder : o.outFolder with
        | none =>
          simp only [hfolder] at h
          obtain ⟨hout, rfl⟩ := Prod.mk.inj h
          obtain rfl := Except.ok.inj hout
          exact ⟨hurl, ⟨styles, store, hload, rfl, rfl⟩, by simp [outputPath, hfolder],
            fun _ => rfl, nofun⟩
        | some folder =>
          simp only [hfolder] at h
          split at h
          · cases h
          rename_i disk hwrite
          obtain ⟨hout, rfl⟩ := Prod.mk.inj h
          obtain rfl := Except.ok.inj hout
          refine ⟨hurl, ⟨styles, store, hload, rfl, rfl⟩, by simp [outputPath, hfolder], nofun, ?_⟩
          rintro file hfile
          obtain rfl := Option.some.inj hfile
          exact hwrite
  · rintro ⟨hurl, ⟨styles, store, hload, hcss, hcache⟩, hpath, hdisk, hwrite⟩
    obtain ⟨u, file?, css⟩ := out
    obtain ⟨disk', cache'⟩ := st'
    simp only at hurl hload hcss hpath hdisk hwrite hcache
    subst hcss hcache
    rw [loader] at hload
    rw [process, hurl]
    simp only [hload]
    cases hfolder : o.outFolder with
    | none =>
      rw [outputPath, hfolder] at hpath
      obtain rfl : file? = none := hpath
      simp [hdisk rfl]
    | some folder =>
      rw [outputPath, hfolder] at hpath
      obtain rfl : file? = some _ := hpath
      simp only [hwrite _ rfl]

theorem processAll_cons_of_ok {paths : List Text} {outs : List Output} {st₁ : State}
    (h : process o root path st = (.ok out, st₁))
    (hrest : processAll o root paths st₁ = (.ok outs, st')) :
    processAll o root (path :: paths) st = (.ok (out :: outs), st') := by
  rw [processAll, h]
  simp only [hrest]

/-- Stylesheets are processed one after the other. -/
theorem exists_of_processAll_cons {paths : List Text}
    (h : processAll o root (path :: paths) st = (.ok outs, st')) :
    ∃ out st₁ others, process o root path st = (.ok out, st₁) ∧
      processAll o root paths st₁ = (.ok others, st') ∧ outs = out :: others := by
  rw [processAll] at h
  cases hprocess : process o root path st with
  | mk result st₁ =>
    rw [hprocess] at h
    cases result with
    | error e => cases h
    | ok out =>
      cases hrest : processAll o root paths st₁ with
      | mk result st₂ =>
        simp only [hrest] at h
        cases result with
        | error e => cases h
        | ok others =>
          obtain ⟨houts, rfl⟩ := Prod.mk.inj h
          exact ⟨out, st₁, others, rfl, hrest, (Except.ok.inj houts).symm⟩

/-- Without a folder for outputs nothing is written. -/
theorem disk_eq_of_processAll (hfolder : o.outFolder = none) {paths : List Text}
    (h : processAll o root paths st = (.ok outs, st')) : st'.disk = st.disk := by
  induction paths generalizing st outs with
  | nil =>
    obtain ⟨-, rfl⟩ := Prod.mk.inj h
    rfl
  | cons path paths ih =>
    obtain ⟨out, st₁, others, hprocess, hrest, -⟩ := exists_of_processAll_cons h
    have hprocessed := process_eq_ok_iff.mp hprocess
    have hpath : out.path = none := by rw [hprocessed.path_eq, outputPath, hfolder, Option.map_none]
    exact (ih hrest).trans (hprocessed.disk_eq hpath)

/-! ## What a stylesheet is made into -/

/-- What `path` is made into when nothing has been loaded before. -/
structure IsOutput (o : Options) (d : Disk) (root : Place) (path : Text) (out : Output) :
    Prop where
  url_eq : ∃ names, d.locate path = .ok (root ++ names) ∧ out.url = ['/'].intercalate names
  css_eq : ∃ styles, ((loader o d root).load out.url o.isScoped {}).1 = .ok styles ∧
    out.css = ['\n'].intercalate styles
  path_eq : out.path = outputPath o out.url

theorem Processed.isOutput (h : Processed o root path { disk := d } out st') :
    IsOutput o d root path out where
  url_eq := url_eq_ok_iff.mp h.url_eq
  css_eq := by
    obtain ⟨styles, store, hload, hcss, -⟩ := h.load_eq
    exact ⟨styles, congrArg Prod.fst hload, hcss⟩
  path_eq := h.path_eq

/-- A stylesheet that is loaded has a url that leads somewhere. -/
theorem IsOutput.isResolvable (h : IsOutput o d root path out) : Url.isResolvable out.url := by
  obtain ⟨styles, hload, -⟩ := h.css_eq
  by_contra hurl
  rw [Loader.load_of_not_isResolvable _ hurl] at hload
  cases hload

/-- An output file has the names of the url, with more at the end of the last one. -/
theorem IsOutput.destination_eq (h : IsOutput o d root path out)
    (hhome : ∀ n ∈ d.home, Path.IsName n) (hsuffix : '/' ∉ o.suffix) {file : Text}
    (hfile : out.path = some file) :
    ∃ folder init name, o.outFolder = some folder ∧
      out.url = ['/'].intercalate (init ++ [name]) ∧ d.destination file =
        d.destination folder ++ (init ++ [name ++ Compiled.extension o.isScoped o.suffix]) := by
  obtain ⟨names, hlocate, hurl⟩ := h.url_eq
  have hnames : ∀ n ∈ names, Path.IsName n := fun n hn =>
    isName_of_mem_destination hhome (eq_destination hlocate ▸ List.mem_append_right root hn)
  have hne : names ≠ [] := by
    rintro rfl
    have hresolvable := h.isResolvable
    rw [hurl] at hresolvable
    cases hresolvable
  obtain ⟨init, name, rfl⟩ := (List.eq_nil_or_concat' names).resolve_left hne
  rw [h.path_eq, outputPath, Option.map_eq_some_iff] at hfile
  obtain ⟨folder, hfolder, rfl⟩ := hfile
  have hext : '/' ∉ Compiled.extension o.isScoped o.suffix := by
    rw [Compiled.extension, List.mem_append, not_or]
    exact ⟨by cases o.isScoped <;> decide, hsuffix⟩
  have hmodule : ∀ n ∈ init ++ [name ++ Compiled.extension o.isScoped o.suffix],
      Path.IsName n := by
    intro n hn
    rcases List.mem_append.mp hn with hn | hn
    · exact hnames n (List.mem_append_left _ hn)
    · rw [List.mem_singleton.mp hn]
      exact (hnames name (by simp)).append hext
  have hmodule_ne : init ++ [name ++ Compiled.extension o.isScoped o.suffix] ≠ [] := by simp
  refine ⟨folder, init, name, hfolder, hurl, ?_⟩
  rw [hurl, Compiled.moduleUrl_intercalate, destination_join d folder
    (Path.not_isAbsolute_intercalate hmodule_ne hmodule),
    Path.steps_intercalate hmodule_ne hmodule, arrive_names _ fun n hn => (hmodule n hn).not_up]

/-- Output files are at the same place only if the stylesheets have the same url. -/
theorem eq_of_destination_eq (hhome : ∀ n ∈ d.home, Path.IsName n) (hsuffix : '/' ∉ o.suffix)
    {path' : Text} {out' : Output} (h : IsOutput o d root path out)
    (h' : IsOutput o d root path' out') {file file' : Text} (hfile : out.path = some file)
    (hfile' : out'.path = some file') (heq : d.destination file = d.destination file') :
    out = out' := by
  obtain ⟨folder, init, name, hfolder, hurl, hdestination⟩ := h.destination_eq hhome hsuffix hfile
  obtain ⟨folder', init', name', hfolder', hurl', hdestination'⟩ :=
    h'.destination_eq hhome hsuffix hfile'
  obtain rfl : folder = folder' := Option.some.inj (hfolder.symm.trans hfolder')
  rw [hdestination, hdestination', List.append_cancel_left_eq] at heq
  obtain ⟨rfl, hlast⟩ := List.append_inj' heq rfl
  obtain rfl := List.append_cancel_right (List.cons.inj hlast).1
  have hsame : out.url = out'.url := hurl.trans hurl'.symm
  obtain ⟨styles, hload, hcss⟩ := h.css_eq
  obtain ⟨styles', hload', hcss'⟩ := h'.css_eq
  rw [hsame, hload'] at hload
  obtain rfl := Except.ok.inj hload
  have hpath : out.path = out'.path := by rw [h.path_eq, h'.path_eq, hsame]
  obtain ⟨url, path, css⟩ := out
  obtain ⟨url', path', css'⟩ := out'
  simp only at hsame hcss hcss' hpath
  rw [hsame, hpath, hcss, hcss']

/-! ## Disks with outputs -/

/-- The disk `e` is `d` with a file for each of `outs`, and the folders on the way to it. -/
structure HasOutputs (d : Disk) (outs : List Output) (e : Disk) : Prop where
  home_eq : e.home = d.home
  pathLimit_eq : e.pathLimit = d.pathLimit
  written : ∀ out ∈ outs, ∀ file, out.path = some file →
    e.content? (d.destination file) = some (.text out.css)
  kept : ∀ place, (∀ out ∈ outs, ∀ file, out.path = some file → d.destination file ≠ place) →
    e.content? place = d.content? place
  isFolder_iff : ∀ place, e.isFolder place ↔ d.isFolder place ∨
    ∃ out ∈ outs, ∃ file, out.path = some file ∧ place ∈ d.foldersTo file

namespace HasOutputs

theorem nil (d : Disk) : HasOutputs d [] d :=
  ⟨rfl, rfl, by simp, fun _ _ => rfl, by simp⟩

/-- Files on a disk with outputs were there before, or are outputs. -/
theorem isFile_or (h : HasOutputs d outs e) (hplace : e.isFile place) :
    d.isFile place ∨ ∃ out ∈ outs, ∃ file, out.path = some file ∧ d.destination file = place := by
  by_contra hnone
  obtain ⟨hfile, hout⟩ := not_or.mp hnone
  refine hfile ?_
  rwa [isFile, ← h.kept place fun out hmem file hpath heq => hout ⟨out, hmem, file, hpath, heq⟩]

theorem extension (h : HasOutputs d outs e) : d.Extends e where
  home_eq := h.home_eq
  pathLimit_eq := h.pathLimit_eq
  isFolder := fun place hplace => (h.isFolder_iff place).mpr (.inl hplace)
  isFile := by
    intro place hplace
    by_cases hout : ∃ out ∈ outs, ∃ file, out.path = some file ∧ d.destination file = place
    · obtain ⟨out, hmem, file, hpath, rfl⟩ := hout
      rw [isFile, h.written out hmem file hpath]
      rfl
    · rwa [isFile, h.kept place fun out hmem file hpath heq => hout ⟨out, hmem, file, hpath, heq⟩]

theorem foldersTo_eq (h : HasOutputs d outs e) (file : Text) :
    e.foldersTo file = d.foldersTo file := by
  rw [foldersTo, foldersTo, h.extension.start_eq]

/-- What was read before is still read, unless an output is at its place. -/
theorem read_of_read (h : HasOutputs d outs e) {t : Text} (hread : d.read path = .ok t)
    (hplace : ∀ place, d.locate path = .ok place →
      ∀ out ∈ outs, ∀ file, out.path = some file → d.destination file ≠ place) :
    e.read path = .ok t := by
  obtain ⟨place, hlocate, hcontent⟩ := read_eq_ok_iff.mp hread
  refine read_eq_ok_iff.mpr ⟨place, h.extension.locate hlocate, ?_⟩
  rw [h.kept place (hplace place hlocate), hcontent]

/-- Outputs are read from the output files. -/
theorem read_output (h : HasOutputs d outs e) (hmem : out ∈ outs) (hpath : out.path = some file)
    (hfile : d.IsWritable file) : e.read file = .ok out.css :=
  hfile.read h.home_eq h.pathLimit_eq
    (fun p hp => (h.isFolder_iff p).mpr (.inr ⟨out, hmem, file, hpath, hp⟩))
    (h.written out hmem file hpath)

/-- A file can be written still, if it is no folder of an output and no output is among its
folders. -/
theorem isWritable (h : HasOutputs d outs e) (hfile : d.IsWritable file)
    (hapart : ∀ out ∈ outs, ∀ file', out.path = some file' →
      d.destination file' ∉ d.foldersTo file ∧ d.destination file ∉ d.foldersTo file') :
    e.IsWritable file where
  accepts := (h.extension.accepts_eq file).trans hfile.accepts
  names := hfile.names
  fits := hfile.fits
  not_isFile := by
    intro p hp hfolder
    rw [h.foldersTo_eq] at hp
    rcases h.isFile_or hfolder with hfolder | ⟨out, hmem, file', hpath, rfl⟩
    · exact hfile.not_isFile p hp hfolder
    · exact (hapart out hmem file' hpath).1 hp
  not_isFolder := by
    rw [h.extension.destination_eq, h.isFolder_iff]
    rintro (hfolder | ⟨out, hmem, file', hpath, hp⟩)
    · exact hfile.not_isFolder hfolder
    · exact (hapart out hmem file' hpath).2 hp
  not_mem := by
    rw [h.extension.destination_eq, h.foldersTo_eq]
    exact hfile.not_mem

/-- An output that is not written changes nothing. -/
theorem concat_of_none (h : HasOutputs d outs e) (hpath : out.path = none) :
    HasOutputs d (outs ++ [out]) e where
  home_eq := h.home_eq
  pathLimit_eq := h.pathLimit_eq
  written := by
    intro out' hmem file' hfile'
    rcases List.mem_append.mp hmem with hmem | hmem
    · exact h.written out' hmem file' hfile'
    · rw [List.mem_singleton.mp hmem, hpath] at hfile'
      cases hfile'
  kept := fun place hplace => h.kept place fun out' hmem =>
    hplace out' (List.mem_append_left _ hmem)
  isFolder_iff := by
    intro place
    rw [h.isFolder_iff]
    simp [or_and_right, exists_or, hpath]

/-- One more output is written. Another one at the same place is the same. -/
theorem concat_of_wrote (h : HasOutputs d outs e) (hpath : out.path = some file)
    (hsame : ∀ out' ∈ outs, ∀ file', out'.path = some file' →
      d.destination file' = d.destination file → out' = out)
    (hwrote : e.Wrote file out.css e') : HasOutputs d (outs ++ [out]) e' where
  home_eq := hwrote.home_eq.trans h.home_eq
  pathLimit_eq := hwrote.pathLimit_eq.trans h.pathLimit_eq
  written := by
    intro out' hmem file' hfile'
    rw [hwrote.content?_eq, h.extension.destination_eq]
    split
    · rename_i heq
      rcases List.mem_append.mp hmem with hmem | hmem
      · rw [hsame out' hmem file' hfile' heq]
      · rw [List.mem_singleton.mp hmem]
    · rename_i hne
      rcases List.mem_append.mp hmem with hmem | hmem
      · exact h.written out' hmem file' hfile'
      · rw [List.mem_singleton.mp hmem, hpath] at hfile'
        exact absurd (congrArg d.destination (Option.some.inj hfile').symm) hne
  kept := by
    intro place hplace
    have hne : place ≠ e.destination file := by
      rw [h.extension.destination_eq]
      exact (hplace out (by simp) file hpath).symm
    rw [hwrote.content?_eq, if_neg hne]
    exact h.kept place fun out' hmem => hplace out' (List.mem_append_left _ hmem)
  isFolder_iff := by
    intro place
    rw [hwrote.isFolder_iff, h.isFolder_iff, h.foldersTo_eq]
    simp [or_and_right, exists_or, hpath, or_assoc]

end HasOutputs

end Batch

end ScopedStyles
