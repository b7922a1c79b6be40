import ScopedStyles.Proofs.Batch.Outputs
import ScopedStyles.Proofs.Loading.Sources

/-!
# The order of a batch

The stylesheets of a batch share a cache and a disk, and each finds there what those before it have
left. It makes no difference: a cache that others have filled gives the same styles as an empty one
(`Loads.again`), and output files are not read. So all orders give the same outputs and the same
files (`Batch.run_any_order`).
-/

namespace ScopedStyles

open Text

namespace Batch

open Disk

/-! ## Finding the stylesheets -/

theorem foldl_addPath (paths acc : List Text) :
    paths.foldl addPath acc = List.eraseDupsBy.loop Path.same paths acc.reverse := by
  induction paths generalizing acc with
  | nil => exact (List.reverse_reverse acc).symm
  | cons path paths ih =>
    rw [List.foldl_cons, ih, List.eraseDupsBy.loop, addPath, List.any_reverse]
    cases acc.any (Path.same path) <;> simp

/-- The first of equal paths is kept. -/
theorem findPaths_eq {d : Disk} {arguments : List Text} {expansions : List (List Text)}
    (h : arguments.mapM (argumentPaths d) = .ok expansions) :
    findPaths d arguments = .ok (expansions.flatten.eraseDupsBy Path.same) := by
  rw [findPaths, h]
  exact congrArg Except.ok (foldl_addPath expansions.flatten [])

/-! ## What is read and written -/

section Plan

variable {o : Options} {d e : Disk} {root : Place} {paths done order : List Text} {p : Text}
  {out : Text → Output} {st : State}

/-- The urls that are asked for to load the stylesheet at `path` when nothing has been loaded. -/
def fetched (o : Options) (d : Disk) (root : Place) (path : Text) : List Text :=
  match url d root path with
  | .error _ => []
  | .ok u => ((loader o d root).load u o.isScoped {}).2.fetched

/-- The places of the stylesheet at `path` and of everything it imports. -/
def placesRead (o : Options) (d : Disk) (root : Place) (path : Text) : List Place :=
  (fetched o d root path).filterMap fun v => (d.locate (Path.join root.path (Url.path v))).toOption

/-- The place of the output file for the stylesheet at `path`. -/
def placeWritten? (o : Options) (d : Disk) (root : Place) (path : Text) : Option Place :=
  match url d root path with
  | .error _ => none
  | .ok u => (outputPath o u).map d.destination

/-- Each of the stylesheets can be processed, and no output is in the way of another one, or is
read. -/
structure IsPlan (o : Options) (d : Disk) (root : Place) (paths : List Text)
    (out : Text → Output) : Prop where
  isOutput : ∀ p ∈ paths, IsOutput o d root p (out p)
  isWritable : ∀ p ∈ paths, ∀ file, (out p).path = some file → d.IsWritable file
  apart : ∀ p ∈ paths, ∀ q ∈ paths, ∀ file file', (out p).path = some file →
    (out q).path = some file' → d.destination file ∉ d.foldersTo file'
  same : ∀ p ∈ paths, ∀ q ∈ paths, ∀ file file', (out p).path = some file →
    (out q).path = some file' → d.destination file = d.destination file' → out p = out q
  unread : ∀ p ∈ paths, ∀ place ∈ placesRead o d root p, ∀ q ∈ paths, ∀ file,
    (out q).path = some file → d.destination file ≠ place

/-- What is read for the stylesheets at `paths`. -/
def filesRead (o : Options) (d : Disk) (root : Place) (paths : List Text) : List (Text × Text) :=
  textsAt (d.stylesheets root.path).read (paths.flatMap (fetched o d root))

/-- What a batch works on when the stylesheets at `done` have been processed. -/
structure Reached (o : Options) (d : Disk) (root : Place) (paths : List Text)
    (out : Text → Output) (done : List Text) (st : State) : Prop where
  hasOutputs : HasOutputs d (done.map out) st.disk
  complete : st.cache.IsComplete o.toScope o.isScoped (filesRead o d root paths)
  closed : st.cache.IsClosed (Source.ofFiles (filesRead o d root paths)).read o.isScoped

theorem reached_start (o : Options) (d : Disk) (root : Place) (paths : List Text)
    (out : Text → Output) : Reached o d root paths out [] { disk := d } where
  hasOutputs := .nil d
  complete := fun _ _ h => by cases h
  closed := by
    intro u css v hu
    cases hu

namespace IsPlan

/-- A stylesheet is loaded as if nothing had been loaded or written before. -/
theorem load (h : IsPlan o d root paths out) (hp : p ∈ paths) (hdone : done ⊆ paths)
    (hst : Reached o d root paths out done st) :
    ∃ styles store, (loader o st.disk root).load (out p).url o.isScoped { cache := st.cache } =
        (.ok styles, store) ∧ (out p).css = ['\n'].intercalate styles ∧
      store.cache.IsComplete o.toScope o.isScoped (filesRead o d root paths) ∧
      store.cache.IsClosed (Source.ofFiles (filesRead o d root paths)).read o.isScoped := by
  have hout := h.isOutput p hp
  obtain ⟨styles, hload, hcss⟩ := hout.css_eq
  have hfresh := loads_load (loader o d root) hout.isResolvable o.isScoped {}
  rw [hload] at hfresh
  have hfetched : fetched o d root p =
      ((loader o d root).load (out p).url o.isScoped {}).2.fetched := by
    rw [fetched, url_eq_ok_iff.mpr hout.url_eq]
  have hfiles := hfresh.congr_read rfl fun v hv css hread =>
    Source.read_ofFiles_eq_ok.mpr (lookup_textsAt.mpr
      ⟨List.mem_flatMap.mpr ⟨p, hp, hfetched ▸ hv⟩, hread⟩)
  obtain ⟨store, hloads, hcomplete, hclosed, hsub⟩ :=
    hfiles.again (t := { cache := st.cache }) hst.complete hst.closed
  -- what is asked for is read as it was in the beginning
  have hreads : ∀ v ∈ store.fetched, ∀ css,
      (Source.ofFiles (filesRead o d root paths)).read v = .ok css →
        (st.disk.stylesheets root.path).read v = .ok css := by
    intro v hv css hread
    have hv : v ∈ fetched o d root p := hfetched ▸ (hsub v hv).resolve_left List.not_mem_nil
    obtain ⟨-, hread⟩ := lookup_textsAt.mp (Source.read_ofFiles_eq_ok.mp hread)
    refine hst.hasOutputs.read_of_read hread fun place hplace out' hout' file hfile => ?_
    obtain ⟨q, hq, rfl⟩ := List.mem_map.mp hout'
    refine h.unread p hp place (List.mem_filterMap.mpr ⟨v, hv, ?_⟩) q (hdone hq) file hfile
    rw [hplace]
    rfl
  have hdisk := hloads.congr_read rfl hreads
  exact ⟨styles, store, hdisk.load_eq (l := loader o st.disk root) hout.isResolvable, hcss,
    hcomplete, hclosed⟩

/-- One more stylesheet is processed. -/
theorem process (h : IsPlan o d root paths out) (hp : p ∈ paths) (hdone : done ⊆ paths)
    (hst : Reached o d root paths out done st) :
    ∃ st', Batch.process o root p st = (.ok (out p), st') ∧
      Reached o d root paths out (done ++ [p]) st' := by
  have hout := h.isOutput p hp
  obtain ⟨styles, store, hload, hcss, hcomplete, hclosed⟩ := h.load hp hdone hst
  have hurl : url st.disk root p = .ok (out p).url := by
    obtain ⟨names, hlocate, hurl⟩ := hout.url_eq
    exact url_eq_ok_iff.mpr ⟨names, hst.hasOutputs.extension.locate hlocate, hurl⟩
  have hmap : (done ++ [p]).map out = done.map out ++ [out p] := List.map_append
  cases hpath : (out p).path with
  | none =>
    refine ⟨⟨st.disk, store.cache⟩, process_eq_ok_iff.mpr
      ⟨hurl, ⟨styles, store, hload, hcss, rfl⟩, hout.path_eq, fun _ => rfl, ?_⟩, ?_, hcomplete,
      hclosed⟩
    · rw [hpath]
      nofun
    · rw [hmap]
      exact hst.hasOutputs.concat_of_none hpath
  | some file =>
    have hfile := hst.hasOutputs.isWritable (h.isWritable p hp file hpath) (by
      intro out' hout' file' hfile'
      obtain ⟨q, hq, rfl⟩ := List.mem_map.mp hout'
      exact ⟨h.apart q (hdone hq) p hp file' file hfile' hpath,
        h.apart p hp q (hdone hq) file file' hpath hfile'⟩)
    obtain ⟨disk, hwrite⟩ := exists_write hfile (out p).css
    refine ⟨⟨disk, store.cache⟩, process_eq_ok_iff.mpr
      ⟨hurl, ⟨styles, store, hload, hcss, rfl⟩, hout.path_eq, ?_, ?_⟩, ?_, hcomplete, hclosed⟩
    · rw [hpath]
      nofun
    · rw [hpath]
      rintro _ ⟨⟩
      exact hwrite
    · rw [hmap]
      refine hst.hasOutputs.concat_of_wrote hpath ?_ (wrote_of_write hwrite).2
      intro out' hout' file' hfile' heq
      obtain ⟨q, hq, rfl⟩ := List.mem_map.mp hout'
      exact h.same q (hdone hq) p hp file' file hfile' hpath heq

/-- Stylesheets are processed in any order. -/
theorem processAll (h : IsPlan o d root paths out) (horder : order ⊆ paths) (hdone : done ⊆ paths)
    (hst : Reached o d root paths out done st) :
    ∃ st', Batch.processAll o root order st = (.ok (order.map out), st') ∧
      Reached o d root paths out (done ++ order) st' := by
  induction order generalizing done st with
  | nil => exact ⟨st, rfl, by rwa [List.append_nil]⟩
  | cons p order ih =>
    obtain ⟨hp, horder⟩ := List.cons_subset.mp horder
    obtain ⟨st₁, hprocess, hst₁⟩ := h.process hp hdone hst
    have hdone₁ : done ++ [p] ⊆ paths :=
      List.append_subset.mpr ⟨hdone, List.cons_subset.mpr ⟨hp, List.nil_subset _⟩⟩
    obtain ⟨st', hrest, hst'⟩ := ih horder hdone₁ hst₁
    rw [List.append_assoc] at hst'
    exact ⟨st', processAll_cons_of_ok hprocess hrest, hst'⟩

end IsPlan

/-! ## Outputs that are apart -/

/-- An output that is written after another one has no folder where the other one is. -/
theorem not_mem_foldersTo {q : Text} {outp outq outq' : Output} {st₁ st₂ : State}
    (hp : Processed o root p { disk := d } outp st₁) (hq : Processed o root q st₁ outq' st₂)
    (houtq : IsOutput o d root q outq) {file file' : Text} (hfile : outp.path = some file)
    (hfile' : outq.path = some file') : d.destination file ∉ d.foldersTo file' := by
  have hst₁ : HasOutputs d [outp] st₁.disk :=
    (HasOutputs.nil d).concat_of_wrote hfile (by simp) (wrote_of_write (hp.write_eq file hfile)).2
  have hurl : outq'.url = outq.url := by
    obtain ⟨names, hlocate, hnames⟩ := houtq.url_eq
    obtain ⟨names', hlocate', hnames'⟩ := url_eq_ok_iff.mp hq.url_eq
    have hsame := Except.ok.inj ((hst₁.extension.locate hlocate).symm.trans hlocate')
    rw [hnames, hnames', List.append_cancel_left hsame]
  have hpath : outq'.path = some file' := by
    rw [hq.path_eq, hurl, ← houtq.path_eq, hfile']
  have hwritable := (wrote_of_write (hq.write_eq file' hpath)).1
  have hthere : st₁.disk.isFile (d.destination file) := by
    rw [isFile, hst₁.written outp List.mem_cons_self file hfile]
    rfl
  rw [← hst₁.foldersTo_eq]
  exact fun hmem => hwritable.not_isFile _ hmem hthere

/-- Stylesheets of which no one and no two fail are a plan, if no output is read. -/
theorem exists_isPlan (hhome : ∀ name ∈ d.home, Path.IsName name) (hsuffix : '/' ∉ o.suffix)
    (hfew : ∀ few : List Text, few.Subperm paths → few.length ≤ 2 →
      ∃ outputs, (processAll o root few { disk := d }).1 = .ok outputs)
    (hunread : ∀ p ∈ paths, ∀ place ∈ placesRead o d root p, ∀ q ∈ paths,
      placeWritten? o d root q ≠ some place) :
    ∃ out, IsPlan o d root paths out := by
  have halone : ∀ p ∈ paths, ∃ out st', process o root p { disk := d } = (.ok out, st') := by
    intro p hp
    have hsub : [p].Subperm paths :=
      List.subperm_of_subset (List.nodup_singleton p) (by simpa using hp)
    obtain ⟨outputs, hok⟩ := hfew [p] hsub (by simp)
    obtain ⟨out, st', -, hprocess, -⟩ := exists_of_processAll_cons (Prod.ext hok rfl)
    exact ⟨out, st', hprocess⟩
  have : Nonempty Output := ⟨⟨[], none, []⟩⟩
  choose! out halone using halone
  have hout : ∀ p ∈ paths, IsOutput o d root p (out p) := fun p hp => by
    obtain ⟨st', hprocess⟩ := halone p hp
    exact (process_eq_ok_iff.mp hprocess).isOutput
  have hwritable : ∀ p ∈ paths, ∀ file, (out p).path = some file → d.IsWritable file := by
    intro p hp file hfile
    obtain ⟨st', hprocess⟩ := halone p hp
    exact (wrote_of_write ((process_eq_ok_iff.mp hprocess).write_eq file hfile)).1
  refine ⟨out, hout, hwritable, ?_, ?_, ?_⟩
  · intro p hp q hq file file' hfile hfile'
    by_cases hpq : p = q
    · subst hpq
      obtain rfl := Option.some.inj (hfile.symm.trans hfile')
      exact (hwritable p hp file hfile).not_mem
    · have hsub : [p, q].Subperm paths :=
        List.subperm_of_subset (by simpa using hpq) (by simpa using ⟨hp, hq⟩)
      obtain ⟨outputs, hok⟩ := hfew [p, q] hsub (by simp)
      obtain ⟨outp, st₁, others, hprocess, hrest, -⟩ :=
        exists_of_processAll_cons (Prod.ext hok rfl)
      obtain ⟨outq, st₂, -, hprocess', -⟩ := exists_of_processAll_cons hrest
      obtain ⟨st', hprocess₁⟩ := halone p hp
      obtain rfl := Except.ok.inj (Prod.mk.inj (hprocess.symm.trans hprocess₁)).1
      exact not_mem_foldersTo (process_eq_ok_iff.mp hprocess) (process_eq_ok_iff.mp hprocess')
        (hout q hq) hfile hfile'
  · intro p hp q hq file file' hfile hfile' heq
    exact eq_of_destination_eq hhome hsuffix (hout p hp) (hout q hq) hfile hfile' heq
  · intro p hp place hplace q hq file hfile heq
    refine hunread p hp place hplace q hq ?_
    rw [placeWritten?, url_eq_ok_iff.mpr (hout q hq).url_eq]
    simp only [← (hout q hq).path_eq, hfile, Option.map_some, heq]

/-! ## Runs -/

theorem run_eq (hroot : d.locate o.root = .ok root) (hfound : findPaths d o.files = .ok paths)
    (hne : paths ≠ []) :
    run o d =
      ((processAll o root paths { disk := d }).1,
        (processAll o root paths { disk := d }).2.disk) := by
  obtain ⟨path, paths, rfl⟩ := List.exists_cons_of_ne_nil hne
  rw [run, hroot]
  simp only [hfound]

theorem HasOutputs.congr {outs outs' : List Output} (h : HasOutputs d outs e)
    (hmem : ∀ out, out ∈ outs ↔ out ∈ outs') : HasOutputs d outs' e where
  home_eq := h.home_eq
  pathLimit_eq := h.pathLimit_eq
  written := fun out hout => h.written out ((hmem out).mpr hout)
  kept := fun place hplace => h.kept place fun out hout => hplace out ((hmem out).mp hout)
  isFolder_iff := fun place => by simpa only [hmem] using h.isFolder_iff place

/-- Where a list of stylesheets does not fail, those that come first in it do not fail alone. -/
theorem exists_outputs_of_append {more : List Text}
    (h : ∃ outputs, (processAll o root (order ++ more) st).1 = .ok outputs) :
    ∃ outputs, (processAll o root order st).1 = .ok outputs := by
  induction order generalizing st with
  | nil => exact ⟨[], rfl⟩
  | cons p order ih =>
    obtain ⟨outputs, hok⟩ := h
    obtain ⟨out, st₁, others, hprocess, hrest, -⟩ := exists_of_processAll_cons (Prod.ext hok rfl)
    obtain ⟨others', hothers⟩ := ih ⟨others, congrArg Prod.fst hrest⟩
    have hall := processAll_cons_of_ok hprocess (Prod.ext hothers rfl)
    exact ⟨out :: others', congrArg Prod.fst hall⟩

/-- If the stylesheets fail in no order, no few of them fail: any few come first in some order. -/
theorem exists_outputs_of_every_order {few : List Text}
    (h : ∀ order : List Text, order.Perm paths →
      ∃ outputs, (processAll o root order st).1 = .ok outputs) (hfew : few.Subperm paths) :
    ∃ outputs, (processAll o root few st).1 = .ok outputs := by
  obtain ⟨among, hperm, hsub⟩ := hfew
  obtain ⟨others, hothers⟩ := hsub.exists_perm_append
  exact exists_outputs_of_append (h (few ++ others)
    ((hothers.trans (hperm.append_right others)).symm))

/-- Each stylesheet of a batch is made into what it would be made into alone, whatever the order is,
and afterwards the disk has the output files and their folders and is as it was otherwise. No one
and no two of the stylesheets must fail, whichever of them comes first, which is no more than that
they fail in no order (`exists_outputs_of_every_order`), and no output file must be read. It is not
enough that one order does not fail: an import may lead through a folder that comes with an
output. -/
theorem run_any_order (o : Options) (d : Disk) (root : Place) (expansions : List (List Text))
    (paths : List Text) (hhome : ∀ name ∈ d.home, Path.IsName name) (hsuffix : '/' ∉ o.suffix)
    (hroot : d.locate o.root = .ok root)
    (hfiles : o.files.mapM (argumentPaths d) = .ok expansions)
    (hpaths : paths = expansions.flatten.eraseDupsBy Path.same)
    (hfew : ∀ few : List Text, few.Subperm paths → few.length ≤ 2 →
      ∃ outputs, (processAll o root few { disk := d }).1 = .ok outputs)
    (hunread : ∀ p ∈ paths, ∀ place ∈ placesRead o d root p, ∀ q ∈ paths,
      placeWritten? o d root q ≠ some place) :
    ∃ out : Text → Output,
      (∀ p ∈ paths,
        (∃ names, d.locate p = .ok (root ++ names) ∧ (out p).url = ['/'].intercalate names) ∧
        (∃ styles, ((loader o d root).load (out p).url o.isScoped {}).1 = .ok styles ∧
          (out p).css = ['\n'].intercalate styles) ∧
        (out p).path = o.outFolder.map fun folder =>
          Path.join folder (Compiled.moduleUrl (out p).url o.isScoped o.suffix)) ∧
      (paths ≠ [] → (run o d).1 = .ok (paths.map out) ∧ HasOutputs d (paths.map out) (run o d).2) ∧
      ∀ order : List Text, order.Perm paths →
        ∃ st, processAll o root order { disk := d } = (.ok (order.map out), st) ∧
          HasOutputs d (paths.map out) st.disk ∧ (o.outFolder = none → st.disk = d) ∧
          ∀ p ∈ paths, ∀ file, (out p).path = some file → st.disk.read file = .ok (out p).css := by
  obtain ⟨out, hplan⟩ := exists_isPlan hhome hsuffix hfew hunread
  have horders : ∀ order : List Text, order.Perm paths →
      ∃ st, processAll o root order { disk := d } = (.ok (order.map out), st) ∧
        HasOutputs d (paths.map out) st.disk := by
    intro order horder
    obtain ⟨st, hall, hst⟩ := hplan.processAll horder.subset (List.nil_subset paths)
      (reached_start o d root paths out)
    exact ⟨st, hall, hst.hasOutputs.congr fun _ => (horder.map out).mem_iff⟩
  refine ⟨out, fun p hp => ?_, fun hne => ?_, fun order horder => ?_⟩
  · obtain ⟨hurl, hcss, hpath⟩ := hplan.isOutput p hp
    exact ⟨hurl, hcss, hpath⟩
  · obtain ⟨st, hall, hst⟩ := horders paths (List.Perm.refl paths)
    have hfound := findPaths_eq hfiles
    rw [← hpaths] at hfound
    rw [run_eq hroot hfound hne]
    exact ⟨congrArg Prod.fst hall, by rwa [hall]⟩
  · obtain ⟨st, hall, hst⟩ := horders order horder
    refine ⟨st, hall, hst, fun hfolder => ?_, fun p hp file hfile => ?_⟩
    · exact disk_eq_of_processAll hfolder hall
    · exact hst.read_output (List.mem_map_of_mem hp) hfile (hplan.isWritable p hp file hfile)

end Plan

/-- Two stylesheets, one of which imports the other one, which is named twice. -/
theorem run_any_order_shared :
    let d : Disk := { files := [(["a.css".toList], .text "@import 'b.css';".toList),
      (["b.css".toList], .text "x".toList)] }
    let o : Options := .ofArguments
      { files := ["a.css".toList, "b.css".toList, "./b.css".toList],
        outFolder := some "out".toList } {}
    ∃ out : Text → Output, ∀ order : List Text, order.Perm o.files →
      ∃ st, processAll o [] order { disk := d } = (.ok (order.map out), st) ∧
        st.disk.read "out/b.css.shim.css".toList = .ok "x".toList := by
  intro d o
  have hfiles : o.files.mapM (argumentPaths d) =
      .ok [["a.css".toList], ["b.css".toList], ["./b.css".toList]] := by decide +kernel
  have hone : ∀ p ∈ o.files, (processAll o [] [p] { disk := d }).1.toOption.isSome := by
    decide +kernel
  have htwo : ∀ p ∈ o.files, ∀ q ∈ o.files,
      (processAll o [] [p, q] { disk := d }).1.toOption.isSome := by decide +kernel
  have hok : ∀ {result : Except BatchError (List Output)}, result.toOption.isSome →
      ∃ outputs, result = .ok outputs := by
    rintro (e | outputs) h
    · cases h
    · exact ⟨outputs, rfl⟩
  obtain ⟨out, hout, -, horders⟩ := run_any_order o d []
    [["a.css".toList], ["b.css".toList], ["./b.css".toList]] o.files nofun (by decide +kernel)
    (by decide +kernel) hfiles (by decide +kernel) (by
      intro few hsub hlength
      rcases few with - | ⟨p, - | ⟨q, - | ⟨r, few⟩⟩⟩
      · exact ⟨[], rfl⟩
      · exact hok (hone p (hsub.subset (by simp)))
      · exact hok (htwo p (hsub.subset (by simp)) q (hsub.subset (by simp)))
      · simp at hlength) (by decide +kernel)
  refine ⟨out, fun order horder => ?_⟩
  obtain ⟨st, hall, -, -, hread⟩ := horders order horder
  refine ⟨st, hall, ?_⟩
  have hb : "b.css".toList ∈ o.files := by decide
  obtain ⟨⟨names, hlocate, hurl⟩, ⟨styles, hload, hcss⟩, hpath⟩ := hout _ hb
  have hplace : d.locate "b.css".toList = .ok ["b.css".toList] := by decide +kernel
  obtain rfl : names = ["b.css".toList] := Except.ok.inj (hlocate.symm.trans hplace)
  have hstyles : ((loader o d []).load "b.css".toList o.isScoped {}).1 = .ok ["x".toList] := by
    decide +kernel
  rw [hurl] at hload hpath
  obtain rfl := Except.ok.inj (hload.symm.trans hstyles)
  have hwritten := hread _ hb "out/b.css.shim.css".toList (hpath.trans (by decide +kernel))
  rw [hcss] at hwritten
  exact hwritten.trans (by decide +kernel)

/-- The folder `out` comes with the first output, and the second stylesheet imports something over
it. -/
example :
    let d : Disk := { files := [(["a.css".toList], .text "x".toList),
      (["b.css".toList], .text "@import 'package:out/../a.css';".toList)] }
    let o : Options := .ofArguments { outFolder := some "out".toList } {}
    (processAll o [] ["a.css".toList, "b.css".toList] { disk := d }).1.toOption.isSome ∧
      (processAll o [] ["b.css".toList, "a.css".toList] { disk := d }).1.toOption = none := by
  decide +kernel

end Batch

end ScopedStyles
