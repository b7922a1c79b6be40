import Mathlib.Algebra.Ring.Nat
import Mathlib.Data.Set.Finite.Lattice
import Mathlib.Data.Set.Finite.List
import Mathlib.Data.Fintype.EquivFin
import ScopedStyles.Proofs.Disk.Walks
import ScopedStyles.Proofs.Loading.Ends
import ScopedStyles.Proofs.Sheet.Imports
import ScopedStyles.Proofs.Url.Plain

/-!
# Urls that are met on a disk

There are many ways to spell a path to one file, and loading tells stylesheets apart by how they are
spelled. Imports lead to finitely many urls all the same (`Disk.finite_visits`), as long as they add
no empty segments and never climb above the root. With empty segments a file can import itself under
a longer url each time (`Disk.loading_spells_on`).
-/

namespace ScopedStyles

open Text Relation

/-- There are finitely many characters. -/
theorem finite_char : Finite Char :=
  Finite.of_injective (fun c => c.val.toFin) fun _ _ h => Char.ext (UInt32.toFin_inj.mp h)

/-! ## Import statements -/

namespace Import

/-- The urls of the imports that can be followed, as they are written. -/
def written (css : Text) : List Text :=
  ((reader.found (Comment.stripUnlessSource css)).filter fun i => Url.isResolvable i.url).map
    fun i => i.url

theorem urls_extract (base css : Text) :
    (extract base css).urls = (written css).map (Url.resolve base) := by
  rw [written, List.map_map]
  rfl

/-- Of a stylesheet that is one import statement the url is found, if it can be followed. -/
theorem Statement.IsWritten.written_text {s : Statement} (h : s.IsWritten)
    (hurl : Url.isResolvable s.url) : written s.text = [s.url] := by
  have hstrip : Comment.stripUnlessSource s.text = s.text :=
    Reader.substitute_of_not_includes Comment.awaitsLiteral_reader
      (lacks_singleton.mp h.lacks_text) _
  have hread := h.read_text []
  have hscan : reader.Scans s.text [] [.found ⟨s.url, s.text⟩] := Reader.scans_of_read hread
  rw [Reader.Scans, List.append_nil, Reader.scan_nil, List.append_nil] at hscan
  simp [written, hstrip, Reader.found, hscan, hurl]

/-- An import without a schema is relative. -/
theorem isRelative_of_mem_written {raw css : Text} (h : raw ∈ written css)
    (hschema : Url.schema? raw = none) : Url.IsRelative raw := by
  obtain ⟨i, hi, rfl⟩ := List.mem_map.mp h
  obtain ⟨-, hresolvable⟩ := List.mem_filter.mp hi
  refine ⟨hschema, fun hslash => ?_⟩
  obtain ⟨rest, hrest⟩ := List.isPrefixOf_iff_prefix.mp hslash
  rw [← hrest] at hresolvable
  cases hresolvable

end Import

theorem Url.resolve_of_schema {raw : Text} (h : Url.schema? raw ≠ none) (base : Text) :
    Url.resolve base raw = raw := by
  rw [resolve, if_pos]
  simp [Option.isSome_iff_ne_none.mpr h]

theorem Url.length_le_path (url : Text) : url.length ≤ (Url.path url).length + 8 := by
  rw [Url.path]
  cases hpackage : after? .exact "package:".toList url with
  | some rest =>
    have hlength := length_after? hpackage
    have height : "package:".toList.length = 8 := rfl
    simp only
    omega
  | none =>
    cases hasset : after? .exact "asset:".toList url with
    | some rest =>
      have hlength := length_after? hasset
      have hsix : "asset:".toList.length = 6 := rfl
      simp only [Option.getD_some]
      omega
    | none => exact Nat.le_add_right _ _

namespace Disk

section Visits

variable {d : Disk} {root : Place} {url : Text}

/-- A stylesheet is a file, below the root folder of the stylesheets. -/
theorem read_stylesheets_eq_ok_iff {css : Text} :
    (d.stylesheets root.path).read url = .ok css ↔
      ∃ place, d.locate (Url.pathBelow root url) = .ok place ∧
        d.content? place = some (.text css) :=
  read_eq_ok_iff

/-! ## Finitely many urls -/

/-- The url at which loading begins, and all that imports on the disk have as their urls. -/
def starts (d : Disk) (url : Text) : List Text :=
  url :: d.files.flatMap fun file =>
    match file.2 with
    | .text css => Import.written css
    | .binary _ => []

theorem mem_starts {u css raw : Text} (hread : (d.stylesheets root.path).read u = .ok css)
    (hraw : raw ∈ Import.written css) : raw ∈ d.starts url := by
  obtain ⟨place, -, hcontent⟩ := read_stylesheets_eq_ok_iff.mp hread
  obtain ⟨before, after, hfiles, -⟩ := List.lookup_eq_some_iff.mp hcontent
  refine List.mem_cons_of_mem _ (List.mem_flatMap.mpr ⟨(place, .text css), ?_, hraw⟩)
  rw [hfiles]
  exact List.mem_append_right _ List.mem_cons_self

/-- The most empty segments that a url can have that is met. -/
def emptyLimit (d : Disk) (url : Text) : Nat := ((d.starts url).map Url.emptySegments).sum + 2

/-- What is met is a url to begin with, or has been resolved and has no more empty segments. -/
theorem visits_or
    (hspelled : ∀ v css, ReflTransGen (ImportsFrom (d.stylesheets root.path).read) url v →
      (d.stylesheets root.path).read v = .ok css →
        ∀ raw ∈ Import.written css, Url.schema? raw = none → [] ∉ split '/' raw)
    {v : Text} (h : ReflTransGen (ImportsFrom (d.stylesheets root.path).read) url v) :
    Url.emptySegments v ≤ d.emptyLimit url ∧
      (v ∈ d.starts url ∨ ∃ base raw, Url.IsRelative raw ∧ v = Url.resolve base raw) := by
  have hstarts : ∀ u ∈ d.starts url, Url.emptySegments u ≤ d.emptyLimit url := fun u hu =>
    (List.le_sum_of_mem (List.mem_map_of_mem hu)).trans (Nat.le_add_right _ _)
  induction h with
  | refl => exact ⟨hstarts url List.mem_cons_self, .inl List.mem_cons_self⟩
  | @tail u v hvisits himports ih =>
    obtain ⟨css, hread, hv⟩ := himports
    rw [Import.urls_extract] at hv
    obtain ⟨raw, hraw, rfl⟩ := List.mem_map.mp hv
    by_cases hschema : Url.schema? raw = none
    · have hrelative := Import.isRelative_of_mem_written hraw hschema
      have hsegments := hspelled u css hvisits hread raw hraw hschema
      have hle := Url.emptySegments_resolve_le hrelative hsegments u
      refine ⟨hle.trans (max_le (Nat.le_add_left _ _) ih.1), .inr ⟨u, raw, hrelative, rfl⟩⟩
    · rw [Url.resolve_of_schema hschema]
      have hmem : raw ∈ d.starts url := mem_starts hread hraw
      exact ⟨hstarts raw hmem, .inl hmem⟩

/-- The urls that are met are finitely many. Those of them where a stylesheet is are not long, and
each of these has finitely many imports. -/
theorem finite_visits
    (hspelled : ∀ v css, ReflTransGen (ImportsFrom (d.stylesheets root.path).read) url v →
      (d.stylesheets root.path).read v = .ok css →
        ∀ raw ∈ Import.written css, Url.schema? raw = none → [] ∉ split '/' raw)
    (hbelow : ∀ v css, ReflTransGen (ImportsFrom (d.stylesheets root.path).read) url v →
      (d.stylesheets root.path).read v = .ok css →
        ¬ climbs (d.start (Url.pathBelow root v)) (Path.steps (Url.pathBelow root v))) :
    {v | ReflTransGen (ImportsFrom (d.stylesheets root.path).read) url v}.Finite := by
  obtain ⟨n, hn⟩ := d.exists_isWithin
  have := finite_char
  have hthere : {v | ReflTransGen (ImportsFrom (d.stylesheets root.path).read) url v ∧
      ∃ css, (d.stylesheets root.path).read v = .ok css}.Finite := by
    refine ((d.starts url).finite_toSet.union (List.finite_length_le Char
      ((1 + (d.emptyLimit url + 1) * (2 * n + 1)) * (n + 3) + 8))).subset ?_
    rintro v ⟨hvisits, css, hread⟩
    obtain ⟨hempty, hstart | ⟨base, raw, hrelative, rfl⟩⟩ := visits_or hspelled hvisits
    · exact .inl hstart
    · obtain ⟨place, hlocate, -⟩ := read_stylesheets_eq_ok_iff.mp hread
      obtain ⟨hchain, hpoint⟩ := Url.tail_split_resolve hrelative base
      have hle := length_le_of_locate hn hlocate (hbelow _ css hvisits hread) hchain hpoint
        ((Url.count_tail_split_path_le _).trans hempty)
      exact .inr ((Url.length_le_path _).trans (Nat.add_le_add_right hle 8))
  have himports : ∀ u, {v | ImportsFrom (d.stylesheets root.path).read u v}.Finite := by
    intro u
    cases hread : (d.stylesheets root.path).read u with
    | error e =>
      refine Set.finite_empty.subset ?_
      rintro v ⟨css, hcss, -⟩
      rw [hread] at hcss
      cases hcss
    | ok css =>
      refine (Import.extract u css).urls.finite_toSet.subset ?_
      rintro v ⟨css', hcss, hv⟩
      rw [hread] at hcss
      exact Except.ok.inj hcss ▸ hv
  refine ((Set.finite_singleton url).union (hthere.biUnion fun u _ => himports u)).subset ?_
  intro v hv
  rcases ReflTransGen.cases_tail hv with rfl | ⟨u, hu, hedge⟩
  · exact .inl rfl
  · obtain ⟨css, hread, -⟩ := id hedge
    exact .inr (Set.mem_biUnion ⟨hu, css, hread⟩ hedge)

/-! ## Files that import themselves -/

/-- The stylesheet at `url` has an import `raw` that leads to the file it stands in. -/
structure ImportsItself (d : Disk) (root : Place) (url raw : Text) : Prop where
  isResolvable : Url.isResolvable url
  isPlainPath : Url.IsPlainPath (Url.splitSchema url).2
  isPlainPath_raw : Url.IsPlainPath raw
  written : ∃ css, (d.stylesheets root.path).read url = .ok css ∧ raw ∈ Import.written css
  locate_eq :
    d.locate (Url.pathBelow root (Url.resolve url raw)) = d.locate (Url.pathBelow root url)

/-- The imports of a file that imports itself have no end. -/
theorem ImportsItself.not_isLoadableFrom {raw : Text} (h : d.ImportsItself root url raw) :
    ¬ IsLoadableFrom (d.stylesheets root.path).read url := by
  obtain ⟨css, hread, hraw⟩ := h.written
  obtain ⟨place, hlocate, hcontent⟩ := read_stylesheets_eq_ok_iff.mp hread
  have hplain : Url.IsPlain url := ⟨Url.schema_mem_of_isResolvable h.isResolvable, h.isPlainPath⟩
  have hplace := eq_destination hlocate
  -- from the folder of the file, the import leads to the file
  have hself : arrive place.dropLast (Path.steps raw) = place := by
    have hagain := eq_destination (h.locate_eq.trans hlocate)
    rw [hplain.destination_resolve h.isPlainPath_raw, ← hplace] at hagain
    exact hagain.symm
  intro hloadable
  refine hloadable.not_of_forall_imports
    (p := fun u => Url.IsPlain u ∧ d.destination (Url.pathBelow root u) = place) ?_
    ⟨hplain, hplace.symm⟩
  rintro u css' ⟨hu, hdestination⟩ hread'
  have hsame : css' = css := by
    obtain ⟨place', hlocate', hcontent'⟩ := read_stylesheets_eq_ok_iff.mp hread'
    rw [eq_destination hlocate', hdestination, hcontent] at hcontent'
    cases hcontent'
    rfl
  refine ⟨Url.resolve u raw, ?_, hu.resolve h.isPlainPath_raw, ?_⟩
  · rw [Import.urls_extract, hsame]
    exact List.mem_map_of_mem hraw
  · rw [hu.destination_resolve h.isPlainPath_raw, hdestination, hself]

/-! ## Loading from a disk -/

/-- Loading from a disk ends, without any limit: finitely many urls can be met, whatever has been
loaded before, and no more are asked for under a higher limit. A file that imports itself is not
loaded, and the error is that of a cycle, unless something that can be met is missing. Imports must
not add empty segments to a path, and must not climb above the root. -/
theorem loading_ends (d : Disk) (root : Place) (url : Text)
    (hspelled : ∀ v css, ReflTransGen (ImportsFrom (d.stylesheets root.path).read) url v →
      (d.stylesheets root.path).read v = .ok css →
        ∀ raw ∈ Import.written css, Url.schema? raw = none → [] ∉ split '/' raw)
    (hbelow : ∀ v css, ReflTransGen (ImportsFrom (d.stylesheets root.path).read) url v →
      (d.stylesheets root.path).read v = .ok css →
        ¬ climbs (d.start (Url.pathBelow root v)) (Path.steps (Url.pathBelow root v))) :
    let source := d.stylesheets root.path
    let visits := ReflTransGen (ImportsFrom source.read) url
    {v | visits v}.Finite ∧
      ∃ limit, ∀ (s : Scope) (isScoped : Bool) (st : Store) (depth : Nat), limit ≤ depth →
        let loaded := Loader.load ⟨s, { source with depth := depth }⟩ url isScoped st
        loaded = Loader.load ⟨s, { source with depth := limit }⟩ url isScoped st ∧
          (∀ u, loaded.1 ≠ .error (.tooDeep u)) ∧
          (∀ v ∈ loaded.2.fetched, v ∈ st.fetched ∨ visits v) ∧
          ∀ raw, st = {} → d.ImportsItself root url raw →
            (∃ u, visits u ∧ loaded.1 = .error (.cyclic u)) ∨
              ∃ u cause, visits u ∧ source.read u = .error cause ∧
                loaded.1 = .error (.failed u cause) := by
  intro source visits
  have hfinite := finite_visits hspelled hbelow
  refine ⟨hfinite, hfinite.toFinset.card + 1, fun s isScoped st depth hdepth => ?_⟩
  intro loaded
  by_cases hurl : Url.isResolvable url
  swap
  · have hload : ∀ depth, Loader.load ⟨s, { source with depth := depth }⟩ url isScoped st =
        (.error (.unresolvable url), st) := fun depth =>
      Loader.load_of_not_isResolvable _ hurl isScoped st
    have hloaded : loaded = (.error (.unresolvable url), st) := hload depth
    rw [hloaded]
    exact ⟨(hload _).symm, nofun, fun v hv => .inl hv, fun raw _ h => absurd h.isResolvable hurl⟩
  obtain ⟨-, -, hlimit⟩ := Loader.load_ends s hfinite hurl isScoped st (Nat.lt_succ_self _)
  obtain ⟨hfetched, herror, -⟩ := Loader.load_ends s hfinite hurl isScoped st
    (Nat.lt_of_lt_of_le (Nat.lt_succ_self _) hdepth)
  refine ⟨hlimit depth hdepth, fun u hdeep => ?_, hfetched, ?_⟩
  · rcases herror _ hdeep with ⟨c, -, he⟩ | ⟨c, cause, -, -, he⟩ <;> cases he
  · rintro raw rfl hself
    cases hout : loaded.1 with
    | ok styles => exact absurd (Loader.isLoadableFrom_of_load hurl hout) hself.not_isLoadableFrom
    | error e =>
      rcases herror e hout with ⟨u, hu, rfl⟩ | ⟨u, cause, hu, hread, rfl⟩
      · exact .inl ⟨u, hu, rfl⟩
      · exact .inr ⟨u, cause, hu, hread, rfl⟩

end Visits

/-- A file below the folder of the stylesheets leads above it and back to itself. -/
theorem loading_ends_above_folder :
    let d : Disk :=
      { files := [(["r".toList, "a.css".toList], .text "@import '../r/a.css';".toList)] }
    let source := d.stylesheets (Place.path ["r".toList])
    {v | ReflTransGen (ImportsFrom source.read) "a.css".toList v}.Finite ∧
      ∃ limit, ∀ (s : Scope) (isScoped : Bool) (depth : Nat), limit ≤ depth →
        ∃ u, (Loader.load ⟨s, { source with depth := depth }⟩ "a.css".toList isScoped {}).1 =
          .error (.cyclic u) := by
  intro d source
  have hread : ∀ u ∈ ["a.css".toList, "../r/a.css".toList],
      source.read u = .ok "@import '../r/a.css';".toList := by decide +kernel
  have himported : ∀ u ∈ ["a.css".toList, "../r/a.css".toList],
      (Import.extract u "@import '../r/a.css';".toList).urls = ["../r/a.css".toList] := by
    decide +kernel
  have hmet : ∀ v, ReflTransGen (ImportsFrom source.read) "a.css".toList v →
      v ∈ ["a.css".toList, "../r/a.css".toList] := by
    intro v hvisits
    induction hvisits with
    | refl => exact List.mem_cons_self
    | tail _ himports ih =>
      obtain ⟨css, hcss, hv⟩ := himports
      rw [hread _ ih] at hcss
      cases hcss
      rw [himported _ ih] at hv
      exact List.mem_cons_of_mem _ hv
  have hwritten : Import.written "@import '../r/a.css';".toList = ["../r/a.css".toList] := by
    decide +kernel
  have hself : d.ImportsItself ["r".toList] "a.css".toList "../r/a.css".toList :=
    ⟨by decide, ⟨by decide, by decide, "a.css".toList, [], by decide, by decide, by decide⟩,
      ⟨by decide, by decide, "a.css".toList, ["r".toList, "..".toList], by decide, by decide,
        by decide⟩,
      ⟨_, hread _ List.mem_cons_self, by rw [hwritten]; exact List.mem_cons_self⟩,
      by decide +kernel⟩
  obtain ⟨hfinite, limit, hends⟩ := loading_ends d ["r".toList] "a.css".toList
    (by
      intro v css hvisits hcss raw hraw _
      rw [hread v (hmet v hvisits)] at hcss
      cases hcss
      rw [hwritten] at hraw
      rw [List.mem_singleton.mp hraw]
      decide)
    (by
      intro v css hvisits _
      have hbelow : ∀ u ∈ ["a.css".toList, "../r/a.css".toList],
          ¬ climbs (d.start (Url.pathBelow ["r".toList] u))
            (Path.steps (Url.pathBelow ["r".toList] u)) := by decide +kernel
      exact hbelow v (hmet v hvisits))
  refine ⟨hfinite, limit, fun s isScoped depth hdepth => ?_⟩
  obtain ⟨-, -, -, hcyclic⟩ := hends s isScoped {} depth hdepth
  rcases hcyclic _ rfl hself with ⟨u, -, hu⟩ | ⟨u, cause, hvisits, hmissing, -⟩
  · exact ⟨u, hu⟩
  · rw [hread u (hmet u hvisits)] at hmissing
    cases hmissing

/-! ## Longer and longer urls -/

/-- A path with more and more slashes. -/
def withSlashes (n : Nat) : Text := 'x' :: '/' :: (List.replicate n '/' ++ "a.css".toList)

theorem length_withSlashes (n : Nat) : (withSlashes n).length = n + 7 := by simp [withSlashes]

/-- A path to a file in the same folder, with more slashes than it takes. -/
def besides (k : Nat) : Text := '.' :: '/' :: (List.replicate k '/' ++ "a.css".toList)

theorem split_slashes (n : Nat) :
    split '/' (List.replicate n '/' ++ "a.css".toList) =
      List.replicate n [] ++ ["a.css".toList] := by
  induction n with
  | zero => decide
  | succ n ih => exact congrArg ([] :: ·) ih

theorem split_withSlashes (n : Nat) :
    split '/' (withSlashes n) = ["x".toList] ++ List.replicate n [] ++ ["a.css".toList] := by
  have hsplit := split_append_separator '/' "x".toList (List.replicate n '/' ++ "a.css".toList)
  rw [split_slashes, ← List.append_assoc] at hsplit
  exact hsplit

theorem split_besides (k : Nat) :
    split '/' (besides k) = ".".toList :: (List.replicate k [] ++ ["a.css".toList]) := by
  have hsplit := split_append_separator '/' ".".toList (List.replicate k '/' ++ "a.css".toList)
  rwa [split_slashes] at hsplit

/-- An import of a path with more slashes than it takes adds them to the url. -/
theorem resolve_besides (k n : Nat) :
    Url.resolve (withSlashes n) (besides k) = withSlashes (n + k) := by
  have hschema : Url.splitSchema (withSlashes n) = ([], withSlashes n) := rfl
  have hempty : ∀ (n : Nat) (stack : List Text),
      (List.replicate n []).foldl Url.pushSegment stack = List.replicate n [] ++ stack := by
    intro n
    induction n with
    | zero => exact fun stack => rfl
    | succ n ih =>
      intro stack
      have hpush : Url.pushSegment stack [] = [] :: stack := rfl
      rw [List.replicate_succ, List.foldl_cons, hpush, ih, List.append_cons,
        ← List.replicate_succ', List.replicate_succ]
  have hfold : (Url.foldSegments (split '/'
      (Url.directory (withSlashes n) ++ besides k))).reverse = split '/' (withSlashes (n + k)) := by
    have hpoint : ∀ stack, Url.pushSegment stack ".".toList = stack := fun stack => rfl
    have hlast : ∀ stack, Url.pushSegment stack "a.css".toList = "a.css".toList :: stack :=
      fun stack => rfl
    have hfirst : ["x".toList].foldl Url.pushSegment [] = ["x".toList] := rfl
    rw [Url.split_directory_append, split_withSlashes, split_withSlashes, List.dropLast_concat,
      split_besides, Url.foldSegments, List.foldl_append, List.foldl_append, hfirst, hempty,
      List.foldl_cons, hpoint, List.foldl_append, hempty, List.foldl_cons, List.foldl_nil, hlast]
    simp
  rw [Url.resolve_of_isRelative ⟨rfl, by simp [besides]⟩, hschema, List.nil_append]
  exact (congrArg ['/'].intercalate hfold).trans (intercalate_split '/' _)

/-- The import is found in a stylesheet that has nothing else in it. -/
theorem written_besides (k : Nat) :
    Import.written ("@import '.".toList ++ List.replicate (k + 1) '/' ++ "a.css';".toList) =
      [besides k] := by
  have hletters : ∀ c ∈ besides k, c ∈ "./acs".toList := by
    intro c hc
    simp only [besides, List.mem_cons, List.mem_append, List.mem_replicate] at hc
    rcases hc with rfl | rfl | ⟨-, rfl⟩ | hc
    · decide
    · decide
    · decide
    · exact (by decide : ∀ d ∈ "a.css".toList, d ∈ "./acs".toList) c hc
  have hplain : ∀ c ∈ "./acs".toList, ¬ Import.endsUrl c ∧ c ≠ '*' := by decide
  let s : Import.Statement := ⟨.string .single, besides k, []⟩
  have hs : s.IsWritten :=
    ⟨List.cons_ne_nil _ _, fun c hc => (hplain c (hletters c hc)).1, List.not_mem_nil,
      lacks_singleton.mpr (not_includes_of_not_mem (c := '*') (by decide) fun hc =>
        (hplain _ (hletters _ hc)).2 rfl),
      (by decide : Lacks [(.exact, Comment.opening)] [])⟩
  have htext : "@import '.".toList ++ List.replicate (k + 1) '/' ++ "a.css';".toList = s.text := by
    have hbehind : besides k ++ "';".toList =
        '.' :: '/' :: (List.replicate k '/' ++ "a.css';".toList) := by simp [besides]
    have hstatement : s.text = "@import '".toList ++ (besides k ++ "';".toList) := rfl
    rw [hstatement, hbehind, List.replicate_succ]
    rfl
  rw [htext, hs.written_text rfl]

/-- Without a limit for paths, a file with an import in it that leads to the file itself, by a path
with more slashes than it takes, is met under infinitely many urls. -/
theorem loading_spells_on :
    let css := "@import '.".toList ++ List.replicate 2100 '/' ++ "a.css';".toList
    let d : Disk := { files := [(["x".toList, "a.css".toList], .text css)], pathLimit := none }
    let source := d.stylesheets (Place.path [])
    ¬ {v | ReflTransGen (ImportsFrom source.read) "x/a.css".toList v}.Finite := by
  intro css d source
  have hwritten : Import.written css = [besides 2099] := written_besides 2099
  have hpath : ∀ n, Path.steps (Url.pathBelow [] (withSlashes n)) = ["x".toList, "a.css".toList] ∧
      (split '/' (Url.pathBelow [] (withSlashes n))).getLast? = some "a.css".toList := by
    intro n
    have hbelow : Url.pathBelow [] (withSlashes n) = [] ++ '/' :: withSlashes n := rfl
    rw [hbelow, Path.steps, split_append_separator, split_withSlashes]
    refine ⟨by simp [split, Path.isIdle], ?_⟩
    rw [← List.append_assoc, List.getLast?_append]
    rfl
  have hread : ∀ n, source.read (withSlashes n) = .ok css := by
    intro n
    obtain ⟨hsteps, hlast⟩ := hpath n
    refine read_stylesheets_eq_ok_iff.mpr ⟨["x".toList, "a.css".toList], ?_, List.lookup_cons_self⟩
    refine locate_eq_ok_iff.mpr ⟨?_, ?_, ?_⟩
    · refine accepts_eq_ok_iff.mpr ⟨?_, List.cons_ne_nil _ _, Bool.false_ne_true⟩
      have hbelow : Url.pathBelow [] (withSlashes n) = '/' :: withSlashes n := rfl
      rw [hbelow, withSlashes]
      simp
    · have hstart : d.start (Url.pathBelow [] (withSlashes n)) = [] := rfl
      rw [hsteps, hstart]
      decide +kernel
    · rw [hlast]
      decide
  have himports : ∀ n, ImportsFrom source.read (withSlashes n) (withSlashes (n + 2099)) := by
    intro n
    refine ⟨_, hread n, ?_⟩
    rw [Import.urls_extract, hwritten, List.map_singleton, resolve_besides]
    exact List.mem_cons_self
  have hvisits : ∀ n, ReflTransGen (ImportsFrom source.read)
      "x/a.css".toList (withSlashes (2099 * n)) := by
    intro n
    induction n with
    | zero => exact .refl
    | succ n ih => exact ih.tail (himports (2099 * n))
  refine Set.infinite_of_injective_forall_mem (f := fun n => withSlashes (2099 * n))
    (fun m n heq => ?_) hvisits
  have hlength := congrArg List.length heq
  simp only [length_withSlashes] at hlength
  omega

end Disk

end ScopedStyles
