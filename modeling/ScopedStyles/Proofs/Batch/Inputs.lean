import ScopedStyles.Proofs.Batch.Outputs
import ScopedStyles.Proofs.Url.Within

/-!
# The urls of input files

A file below the root folder gets the names that lead to it, with slashes between them, for its url.
That url is read again as any other: a colon in the first name can make a schema of what stands
before it. Without one the url leads back to the file, and with one it never does
(`Batch.url_leads_back_iff`).
-/

namespace ScopedStyles

open Text

/-! ## Names and schemas -/

namespace Url

variable {first : Text} {names : List Text}

/-- Names with slashes between them have the schema of the first one. -/
theorem map_fst_schema?_intercalate (first : Text) (names : List Text) :
    (schema? (['/'].intercalate (first :: names))).map Prod.fst =
      (schema? first).map Prod.fst := by
  cases names with
  | nil => rw [List.intercalate_singleton]
  | cons name names =>
    rw [List.intercalate_cons_cons, List.append_assoc]
    exact map_fst_schema?_append first _

/-- A name can begin a url that leads to a stylesheet if it has no schema, or one of the two. -/
theorem isResolvable_intercalate (hfirst : Path.IsName first) (names : List Text) :
    isResolvable (['/'].intercalate (first :: names)) =
      ((schema? first).map Prod.fst).all fun name =>
        name == "package".toList || name == "asset".toList := by
  obtain ⟨c, t, hct⟩ := List.exists_cons_of_ne_nil hfirst.ne_nil
  have hc : c ≠ '/' := by
    rintro rfl
    exact hfirst.no_slash (hct ▸ List.mem_cons_self)
  obtain ⟨rest, hrest⟩ := isPrefix_intercalate_cons ['/'] first names
  rw [← map_fst_schema?_intercalate first names, ← hrest, hct]
  exact isResolvable_cons hc (t ++ rest)

/-- A url without a schema stands for itself. -/
theorem path_of_schema?_eq_none {url : Text} (h : schema? url = none) : Url.path url = url := by
  refine (path_or url).elim id fun hpath => ?_
  rw [hpath, splitSchema, h]

/-- What a url with a schema stands for begins with an end of its first name. -/
theorem exists_path_intercalate (h : isResolvable (['/'].intercalate (first :: names)))
    (hschema : (schema? first).isSome) :
    ∃ name, name <:+ first ∧ name ≠ first ∧
      Url.path (['/'].intercalate (first :: names)) = ['/'].intercalate (name :: names) := by
  obtain ⟨⟨schema, name⟩, hfound⟩ := Option.isSome_iff_exists.mp hschema
  obtain ⟨rfl, hne, hall⟩ := schema?_eq_some_iff.mp hfound
  have hurl : ['/'].intercalate ((schema ++ ':' :: name) :: names) =
      schema ++ ':' :: ['/'].intercalate (name :: names) := by
    rw [List.append_cons, ← append_intercalate_cons, ← List.append_cons]
  have hsplit : splitSchema (schema ++ ':' :: ['/'].intercalate (name :: names)) =
      (schema ++ [':'], ['/'].intercalate (name :: names)) := by
    rw [splitSchema, schema?_eq_some_iff.mpr ⟨rfl, hne, hall⟩]
  refine ⟨name, (List.suffix_cons ':' name).trans (List.suffix_append schema _), ?_, ?_⟩
  · intro heq
    have hlength := congrArg List.length heq
    simp only [List.length_append, List.length_cons] at hlength
    omega
  · rw [path_eq_of_mem (schema_mem_of_isResolvable h), hurl, hsplit]

end Url

/-! ## Places and paths -/

namespace Disk

variable {root names : Place}

/-- The path to a place leads there. -/
theorem destination_path (d : Disk) (hroot : ∀ n ∈ root, Path.IsName n) :
    d.destination root.path = root := by
  have hstart : d.start root.path = [] := if_pos rfl
  have hsteps : Path.steps root.path = root := by
    by_cases hnil : root = []
    · subst hnil
      rfl
    · rw [Place.path, ← List.nil_append ('/' :: _), Path.steps_append_slash,
        Path.steps_intercalate hnil hroot]
      rfl
  rw [destination, hstart, hsteps, arrive_names [] fun n hn => (hroot n hn).not_up,
    List.nil_append]

/-- Names behind the path to a place make up the path to the place behind them. -/
theorem join_path (hroot : ∀ n ∈ root, Path.IsName n) (hne : names ≠ [])
    (hnames : ∀ n ∈ names, Path.IsName n) :
    Path.join root.path (['/'].intercalate names) = Place.path (root ++ names) := by
  rw [Path.join, if_neg (Path.not_isAbsolute_intercalate hne hnames)]
  obtain rfl | ⟨init, name, rfl⟩ := List.eq_nil_or_concat' root
  · rfl
  · have hname := hroot name (by simp)
    have hsplit : (split '/' (Place.path (init ++ [name]))).reverse =
        name :: (init.reverse ++ [[]]) := by
      rw [Place.path, split, if_pos rfl,
        split_intercalate (by simp) fun n hn => (hroot n hn).no_slash]
      simp
    have hlast := Path.getLast?_ne_slash hsplit hname.ne_nil
    have hpath : Place.path (init ++ [name] ++ names) =
        Place.path (init ++ [name]) ++ '/' :: ['/'].intercalate names := by
      rw [Place.path, intercalate_append (by simp) hne]
      rfl
    rw [hpath]
    split
    · rename_i hnone
      exact absurd (List.getLast?_eq_none_iff.mp hnone) (List.cons_ne_nil _ _)
    · rename_i hslash
      exact absurd hslash hlast
    · rfl

/-- A place has a name no more often than the place that the way to it begins at and the segments of
the way together. -/
theorem count_arrive_le (name : Text) (place : Place) (segments : List Text) :
    (arrive place segments).count name ≤ place.count name + segments.count name := by
  induction segments generalizing place with
  | nil => exact Nat.le_refl _
  | cons s segments ih =>
    have hstep : (advance place s).count name ≤ place.count name + [s].count name := by
      rw [advance]
      split
      · exact Nat.le_add_right_of_le ((List.dropLast_sublist place).count_le name)
      · rw [List.count_append]
    have hrest := ih (advance place s)
    rw [← List.singleton_append, List.count_append]
    calc (arrive place ([s] ++ segments)).count name
        ≤ (advance place s).count name + segments.count name := hrest
      _ ≤ place.count name + ([s].count name + segments.count name) := by omega

end Disk

/-! ## Input files -/

namespace Batch

open Disk

variable {d : Disk} {root names : Place} {path first : Text}

/-- A url with a schema does not lead to the file whose names it is made of: the path that it stands
for has the first of them once less. -/
theorem destination_ne (hroot : ∀ n ∈ root, Path.IsName n)
    (hnames : ∀ n ∈ first :: names, Path.IsName n)
    (hurl : Url.isResolvable (['/'].intercalate (first :: names)))
    (hschema : (Url.schema? first).isSome) :
    d.destination (Url.pathBelow root (['/'].intercalate (first :: names))) ≠
      root ++ first :: names := by
  rw [List.forall_mem_cons] at hnames
  obtain ⟨name, hsuffix, hname, hpath⟩ := Url.exists_path_intercalate hurl hschema
  have hslash : ∀ n ∈ name :: names, '/' ∉ n := List.forall_mem_cons.mpr
    ⟨fun h => hnames.1.no_slash (hsuffix.subset h), fun n hn => (hnames.2 n hn).no_slash⟩
  have hsteps : (Path.steps (['/'].intercalate (name :: names))).count first ≤
      names.count first := by
    have hle := (List.filter_sublist (p := (!Path.isIdle ·))
      (l := split '/' (['/'].intercalate (name :: names)))).count_le first
    rw [split_intercalate (List.cons_ne_nil _ _) hslash, List.count_cons_of_ne hname] at hle
    rwa [Path.steps, split_intercalate (List.cons_ne_nil _ _) hslash]
  have hcount : (d.destination (Url.pathBelow root (['/'].intercalate (first :: names)))).count
      first ≤ root.count first + names.count first := by
    rw [Url.pathBelow, hpath]
    by_cases habsolute : Path.isAbsolute (['/'].intercalate (name :: names))
    · rw [Path.join, if_pos habsolute, destination, start, if_pos habsolute]
      have hle := count_arrive_le first [] (Path.steps (['/'].intercalate (name :: names)))
      rw [List.count_nil] at hle
      omega
    · rw [destination_join d _ habsolute, destination_path d hroot]
      have hle := count_arrive_le first root (Path.steps (['/'].intercalate (name :: names)))
      omega
  intro heq
  rw [heq, List.count_append, List.count_cons_self] at hcount
  omega

/-- A file below the root folder has a url. It is accepted and leads back to the file exactly if it
has no schema, and then the path that it stands for is the path to the file. -/
theorem url_leads_back_iff (hhome : ∀ n ∈ d.home, Path.IsName n)
    (hlocate : d.locate path = .ok (root ++ names)) (hroot : d.isFolder root)
    (hfile : d.isFile (root ++ names)) :
    ∃ u, url d root path = .ok u ∧
      (Url.isResolvable u ∧ d.destination (Url.pathBelow root u) = root ++ names ↔
        Url.schema? u = none) ∧
      (Url.schema? u = none → Url.pathBelow root u = Place.path (root ++ names)) := by
  have hall : ∀ n ∈ root ++ names, Path.IsName n := fun n hn =>
    isName_of_mem_destination hhome (eq_destination hlocate ▸ hn)
  obtain ⟨hallroot, hallnames⟩ := List.forall_mem_append.mp hall
  have hne : names ≠ [] := by
    rintro rfl
    rw [List.append_nil] at hfile
    exact not_isFile_of_isFolder hroot hfile
  obtain ⟨first, names, rfl⟩ := List.exists_cons_of_ne_nil hne
  have hfirst := hallnames first List.mem_cons_self
  have hschema : Url.schema? (['/'].intercalate (first :: names)) = none ↔
      Url.schema? first = none := by
    rw [← Option.map_eq_none_iff, Url.map_fst_schema?_intercalate, Option.map_eq_none_iff]
  have hback : Url.schema? (['/'].intercalate (first :: names)) = none →
      Url.pathBelow root (['/'].intercalate (first :: names)) =
        Place.path (root ++ first :: names) := by
    intro hnone
    rw [Url.pathBelow, Url.path_of_schema?_eq_none hnone, join_path hallroot hne hallnames]
  refine ⟨_, url_eq_ok_iff.mpr ⟨first :: names, hlocate, rfl⟩, ⟨?_, ?_⟩, hback⟩
  · rintro ⟨hresolvable, hdestination⟩
    by_contra hsome
    exact destination_ne hallroot hallnames hresolvable
      (Option.isSome_iff_ne_none.mpr (mt hschema.mpr hsome)) hdestination
  · intro hnone
    refine ⟨?_, ?_⟩
    · rw [Url.isResolvable_intercalate hfirst, hschema.mp hnone]
      rfl
    · rw [hback hnone, destination_path d hall]

/-- A colon in the second name makes no schema, nor does one behind a question mark. -/
theorem url_leads_back_colon :
    let d : Disk := { files := [(["r", "?b:c", "d:e.css"].map String.toList, .text [])] }
    let root : Place := ["r".toList]
    let u := "?b:c/d:e.css".toList
    url d root "/r/?b:c/d:e.css".toList = .ok u ∧ Url.isResolvable u ∧
      Url.pathBelow root u = "/r/?b:c/d:e.css".toList := by
  intro d root u
  have hlocate : d.locate "/r/?b:c/d:e.css".toList =
      .ok (root ++ ["?b:c".toList, "d:e.css".toList]) := by decide +kernel
  obtain ⟨v, hurl, hiff, hback⟩ := url_leads_back_iff (d := d)
    (fun n hn => absurd hn List.not_mem_nil) hlocate (by decide +kernel) (by decide +kernel)
  have hu : url d root "/r/?b:c/d:e.css".toList = .ok u := by decide +kernel
  obtain rfl : u = v := Except.ok.inj (hu.symm.trans hurl)
  have hschema : Url.schema? u = none := by decide +kernel
  exact ⟨hu, (hiff.mpr hschema).1, hback hschema⟩

/-- The name of a file can begin with a schema, and then its url leads to another file, or
nowhere. -/
theorem url_leads_elsewhere :
    let d : Disk :=
      { files := [("package:a.css", "a"), ("a.css", "b"), ("http:a.css", "c")].map fun file =>
          ([file.1.toList], .text file.2.toList) }
    (url d [] "package:a.css".toList = .ok "package:a.css".toList ∧
        Url.isResolvable "package:a.css".toList ∧
        d.read "package:a.css".toList = .ok "a".toList ∧
        (d.stylesheets (Place.path [])).read "package:a.css".toList = .ok "b".toList) ∧
      url d [] "http:a.css".toList = .ok "http:a.css".toList ∧
        ¬ Url.isResolvable "http:a.css".toList := by
  decide +kernel

end Batch

end ScopedStyles
