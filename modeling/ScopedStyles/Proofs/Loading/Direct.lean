import Mathlib.Data.List.Basic
import Mathlib.Logic.Relation
import ScopedStyles.Loading.Basic

/-!
# Loading without a cache

What loading means: a stylesheet is compiled, and the styles of its imports follow in order, each
loaded anew however often it is imported. `direct` is that, for finitely many files.
-/

namespace ScopedStyles

open Text Relation

/-! ## The graph of imports -/

/-- The stylesheet at `u` is among the files and imports the one at `v`. -/
def Imports (files : List (Text × Text)) (u v : Text) : Prop :=
  ∃ css, files.lookup u = some css ∧ v ∈ (Import.extract u css).urls

/-! ## Depth first, without a cache -/

/-- The urls that are put on a path of imports are used up one by one. -/
theorem length_filter_path_lt {files : List (Text × Text)} {path : List Text} {url css : Text}
    (hpath : url ∉ path) (hfile : files.lookup url = some css) :
    (files.filter fun file => file.1 ∉ path ++ [url]).length <
      (files.filter fun file => file.1 ∉ path).length := by
  have hsplit : (files.filter fun file => file.1 ∉ path ++ [url]) =
      (files.filter fun file => file.1 ∉ path).filter fun file => file.1 ≠ url := by
    rw [List.filter_filter]
    congr 1
    funext file
    by_cases hurl : file.1 = url <;> simp [hurl]
  rw [hsplit]
  refine List.length_filter_lt_length_iff_exists.mpr ⟨(url, css), ?_, by simp⟩
  refine List.mem_filter.mpr ⟨?_, by simpa using hpath⟩
  obtain ⟨before, after, rfl, -⟩ := List.lookup_eq_some_iff.mp hfile
  exact List.mem_append_right _ List.mem_cons_self

/-- The styles of a dependency that is met behind `path`, the urls whose imports lead to it. -/
def direct (s : Scope) (files : List (Text × Text)) (path : List Text) (d : Dependency) :
    Except (LoadError Unit) (List Text) :=
  if _hpath : d.url ∈ path then .error (.cyclic d.url)
  else
    match _hfile : files.lookup d.url with
    | none => .error (.failed d.url ())
    | some css =>
      let compiled := Compiled.ofStylesheet s d.isScoped d.url css
      (compiled.dependencies.mapM fun i => direct s files (path ++ [d.url]) i).map fun imported =>
        compiled.styles ++ imported.flatten
termination_by (files.filter fun file => file.1 ∉ path).length
decreasing_by exact length_filter_path_lt _hpath _hfile

/-- The styles of several dependencies, those of each in order. -/
def directAll (s : Scope) (files : List (Text × Text)) (path : List Text)
    (ds : List Dependency) : Except (LoadError Unit) (List Text) :=
  (ds.mapM (direct s files path)).map List.flatten

/-- What loading the stylesheet at `url` is to answer. -/
def directLoad (s : Scope) (files : List (Text × Text)) (url : Text) (isScoped : Bool) :
    Except (LoadError Unit) (List Text) :=
  if Url.isResolvable url then direct s files [] ⟨url, isScoped⟩ else .error (.unresolvable url)

section Direct

variable {s : Scope} {files : List (Text × Text)} {path : List Text} {d : Dependency}

theorem direct_of_mem (h : d.url ∈ path) : direct s files path d = .error (.cyclic d.url) := by
  rw [direct, dif_pos h]

theorem direct_of_none (hpath : d.url ∉ path) (hfile : files.lookup d.url = none) :
    direct s files path d = .error (.failed d.url ()) := by
  rw [direct, dif_neg hpath]
  split
  · rfl
  · rename_i css hsome
    rw [hfile] at hsome
    cases hsome

theorem direct_of_some {css : Text} (hpath : d.url ∉ path)
    (hfile : files.lookup d.url = some css) :
    direct s files path d =
      (directAll s files (path ++ [d.url])
        (Compiled.ofStylesheet s d.isScoped d.url css).dependencies).map
          ((Compiled.ofStylesheet s d.isScoped d.url css).styles ++ ·) := by
  rw [direct, dif_neg hpath]
  split
  · rename_i hnone
    rw [hfile] at hnone
    cases hnone
  · rename_i css' hsome
    obtain rfl : css = css' := Option.some.inj (hfile.symm.trans hsome)
    rw [directAll]
    simp only
    cases (Compiled.ofStylesheet s d.isScoped d.url css).dependencies.mapM
      (direct s files (path ++ [d.url])) with
    | error e => rfl
    | ok imported => rfl

theorem directAll_cons_of_error {ds : List Dependency} {e : LoadError Unit}
    (h : direct s files path d = .error e) : directAll s files path (d :: ds) = .error e := by
  rw [directAll, List.mapM_cons, h]
  rfl

theorem directAll_cons_of_ok {ds : List Dependency} {styles : List Text}
    (h : direct s files path d = .ok styles) :
    directAll s files path (d :: ds) = (directAll s files path ds).map (styles ++ ·) := by
  rw [directAll, directAll, List.mapM_cons, h]
  cases ds.mapM (direct s files path) with
  | error e => rfl
  | ok others => rfl

theorem directAll_singleton : directAll s files path [d] = direct s files path d := by
  cases h : direct s files path d with
  | error e => exact directAll_cons_of_error h
  | ok styles =>
    rw [directAll_cons_of_ok h]
    exact congrArg Except.ok (List.append_nil styles)

end Direct

end ScopedStyles
