import Mathlib.Data.List.Nodup
import Mathlib.Data.List.Perm.Subperm
import ScopedStyles.Proofs.Loading.Direct

/-!
# Complete stylesheets

A stylesheet is complete if it and everything it imports, directly or not, is among the files and
nothing imports itself. Its styles are then the same on every path of imports that leads to it
(`Complete.directAll_eq`), because none of the urls on such a path is imported by it.
-/

namespace ScopedStyles

open Text Relation

variable {s : Scope} {isScoped : Bool} {files : List (Text × Text)}

/-! ## Paths of imports -/

/-- The path visits files, each of them once, and each of them imports, directly or not, all of
`urls`. -/
structure ImportPath (files : List (Text × Text)) (path urls : List Text) : Prop where
  nodup : path.Nodup
  found : ∀ u ∈ path, u ∈ files.map Prod.fst
  leads : ∀ u ∈ path, ∀ v ∈ urls, TransGen (Imports files) u v

namespace ImportPath

theorem nil (files : List (Text × Text)) (urls : List Text) : ImportPath files [] urls :=
  ⟨List.nodup_nil, by simp, by simp⟩

theorem mono {path urls urls' : List Text} (h : ImportPath files path urls) (hsub : urls' ⊆ urls) :
    ImportPath files path urls' :=
  ⟨h.nodup, h.found, fun u hu v hv => h.leads u hu v (hsub hv)⟩

/-- A path goes on with a file that is not on it, and leads to the imports of that file. -/
theorem extend {path urls : List Text} {url css : Text} (h : ImportPath files path (url :: urls))
    (hpath : url ∉ path) (hfile : files.lookup url = some css) :
    ImportPath files (path ++ [url]) (Import.extract url css).urls := by
  refine ⟨?_, ?_, ?_⟩
  · rw [List.nodup_append]
    refine ⟨h.nodup, List.nodup_singleton _, ?_⟩
    rintro u hu v hv rfl
    exact hpath (List.mem_singleton.mp hv ▸ hu)
  · intro u hu
    rcases List.mem_append.mp hu with hu | hu
    · exact h.found u hu
    · obtain ⟨before, after, rfl, -⟩ := List.lookup_eq_some_iff.mp hfile
      simp [List.mem_singleton.mp hu]
  · intro u hu v hv
    have hedge : Imports files url v := ⟨css, hfile, hv⟩
    rcases List.mem_append.mp hu with hu | hu
    · exact (h.leads u hu url List.mem_cons_self).tail hedge
    · rw [List.mem_singleton.mp hu]
      exact TransGen.single hedge

/-- A path is not longer than there are files. -/
theorem length_le {path urls : List Text} (h : ImportPath files path urls) :
    path.length ≤ files.length := by
  have := (List.subperm_of_subset h.nodup h.found).length_le
  rwa [List.length_map] at this

end ImportPath

/-! ## Derivations of styles -/

/-- What can be followed only finitely far does not lead back to where it began. -/
theorem not_transGen_of_acc {r : Text → Text → Prop} {u : Text} (h : Acc (Function.swap r) u) :
    ¬ TransGen r u u := by
  have hirrefl : ∀ {v : Text}, Acc (TransGen (Function.swap r)) v →
      ¬ TransGen (Function.swap r) v v := by
    intro v hacc
    induction hacc with
    | intro v hpred ih => exact fun hself => ih v hself hself
  exact fun hcycle => hirrefl h.transGen (transGen_swap.mpr hcycle)

/-- The stylesheets at `urls` are complete, and these are their styles with those of all imports. -/
inductive Complete (s : Scope) (isScoped : Bool) (files : List (Text × Text)) :
    (urls styles : List Text) → Prop where
  /-- No stylesheet, no styles. -/
  | nil : Complete s isScoped files [] []
  /-- The first stylesheet is complete if its imports are. -/
  | cons {url css : Text} {urls imported styles : List Text}
      (hfile : files.lookup url = some css)
      (himports : Complete s isScoped files (Import.extract url css).urls imported)
      (hrest : Complete s isScoped files urls styles) :
      Complete s isScoped files (url :: urls)
        ((Compiled.ofStylesheet s isScoped url css).styles ++ imported ++ styles)

namespace Complete

/-- The imports of complete stylesheets can be followed only finitely far. -/
theorem acc {urls styles : List Text} (h : Complete s isScoped files urls styles) :
    ∀ u ∈ urls, Acc (Function.swap (Imports files)) u := by
  induction h with
  | nil => simp
  | @cons url css urls imported styles hfile himports hrest ihimports ihrest =>
    intro u hu
    rcases List.mem_cons.mp hu with rfl | hu
    · refine Acc.intro u ?_
      rintro v ⟨css', hfile', hv⟩
      obtain rfl : css = css' := Option.some.inj (hfile.symm.trans hfile')
      exact ihimports v hv
    · exact ihrest u hu

/-- A complete stylesheet does not import itself, directly or not. -/
theorem not_transGen {urls styles : List Text} (h : Complete s isScoped files urls styles)
    {u : Text} (hu : u ∈ urls) : ¬ TransGen (Imports files) u u :=
  not_transGen_of_acc (h.acc u hu)

/-- Complete stylesheets have the same styles behind every path that leads to them. -/
theorem directAll_eq {urls styles path : List Text} (h : Complete s isScoped files urls styles)
    (hpath : ImportPath files path urls) :
    directAll s files path (urls.map fun url => ⟨url, isScoped⟩) = .ok styles := by
  induction h generalizing path with
  | nil => rfl
  | @cons url css urls imported styles hfile himports hrest ihimports ihrest =>
    have hnot : url ∉ path := fun hmem =>
      (Complete.cons hfile himports hrest).not_transGen List.mem_cons_self
        (hpath.leads url hmem url List.mem_cons_self)
    have hdirect : direct s files path ⟨url, isScoped⟩ =
        .ok ((Compiled.ofStylesheet s isScoped url css).styles ++ imported) := by
      rw [direct_of_some hnot hfile]
      exact congrArg (Except.map _) (ihimports (hpath.extend hnot hfile))
    have hrestpath := hpath.mono (List.subset_cons_self url urls)
    rw [List.map_cons, directAll_cons_of_ok hdirect, ihrest hrestpath]
    rfl

/-- A complete stylesheet has the same styles behind every path that leads to it. -/
theorem direct_eq {url : Text} {urls styles path : List Text}
    (h : Complete s isScoped files [url] styles) (hpath : ImportPath files path (url :: urls)) :
    direct s files path ⟨url, isScoped⟩ = .ok styles := by
  rw [← directAll_singleton]
  exact h.directAll_eq (hpath.mono (by simp))

theorem append {urls urls' styles styles' : List Text} (h : Complete s isScoped files urls styles)
    (h' : Complete s isScoped files urls' styles') :
    Complete s isScoped files (urls ++ urls') (styles ++ styles') := by
  induction h with
  | nil => exact h'
  | cons hfile himports hrest ihimports ihrest =>
    rw [List.append_assoc]
    exact .cons hfile himports ihrest

/-- A complete stylesheet is among the files, and so are its imports. -/
theorem exists_imports {urls styles : List Text} (h : Complete s isScoped files urls styles)
    {u : Text} (hu : u ∈ urls) :
    ∃ css imported, files.lookup u = some css ∧
      Complete s isScoped files (Import.extract u css).urls imported := by
  induction h with
  | nil => exact absurd hu List.not_mem_nil
  | @cons url css urls imported styles hfile himports hrest ihimports ihrest =>
    rcases List.mem_cons.mp hu with rfl | hu
    · exact ⟨css, imported, hfile, himports⟩
    · exact ihrest hu

/-- What a complete stylesheet imports, directly or not, is complete. -/
theorem of_reflTransGen {urls styles : List Text} (h : Complete s isScoped files urls styles)
    {u v : Text} (hu : u ∈ urls) (hreach : ReflTransGen (Imports files) u v) :
    ∃ urls' styles', v ∈ urls' ∧ Complete s isScoped files urls' styles' := by
  induction hreach with
  | refl => exact ⟨urls, styles, hu, h⟩
  | tail hreach hedge ih =>
    obtain ⟨urls', styles', hmem, hcomplete⟩ := ih
    obtain ⟨css, hfile, hv⟩ := hedge
    obtain ⟨css', imported, hfile', himports⟩ := hcomplete.exists_imports hmem
    obtain rfl : css = css' := Option.some.inj (hfile.symm.trans hfile')
    exact ⟨_, imported, hv, himports⟩

end Complete

end ScopedStyles
