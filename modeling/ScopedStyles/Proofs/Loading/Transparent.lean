import ScopedStyles.Proofs.Loading.Complete
import ScopedStyles.Proofs.Loading.Loads

/-!
# The cache is transparent

With one form of stylesheets and one set of files, loading answers what `direct` does, whatever has
been loaded before. Failed loads leave entries behind; the invariant is that every stylesheet in the
cache is complete, so that none of its imports leads back to the path that is being loaded.
-/

namespace ScopedStyles

open Text Relation

variable {s : Scope} {isScoped : Bool} {files : List (Text × Text)}

/-! ## Complete caches -/

/-- The stylesheets in the cache are complete, and kept with their styles. -/
def Cache.IsComplete (c : Cache) (s : Scope) (isScoped : Bool) (files : List (Text × Text)) :
    Prop :=
  ∀ url styles, c.find? (Dependency.key ⟨url, isScoped⟩) = some styles →
    Complete s isScoped files [url] styles

/-- Dependencies that have keys of their own, and with each of them its imports. -/
structure Dependency.IsKeyed (files : List (Text × Text)) (ds : Dependency → Prop) : Prop where
  key_injective : ∀ d e, ds d → ds e → d.key = e.key → d = e
  imports : ∀ d v, ds d → Imports files d.url v → ds ⟨v, d.isScoped⟩

/-- Of the dependencies `ds`, those in the cache are complete, and kept with their styles. -/
def Cache.IsCompleteFor (c : Cache) (s : Scope) (files : List (Text × Text))
    (ds : Dependency → Prop) : Prop :=
  ∀ d styles, ds d → c.find? d.key = some styles → Complete s d.isScoped files [d.url] styles

theorem Dependency.isKeyed_form (isScoped : Bool) (files : List (Text × Text)) :
    IsKeyed files (·.isScoped = isScoped) where
  key_injective := by
    rintro ⟨u, a⟩ ⟨v, b⟩ hd he hkey
    obtain rfl : a = isScoped := hd
    obtain rfl : b = a := he
    rw [Dependency.key_injective hkey]
  imports := fun _ _ hd _ => hd

theorem Cache.isCompleteFor_form {c : Cache} :
    c.IsCompleteFor s files (·.isScoped = isScoped) ↔ c.IsComplete s isScoped files := by
  constructor
  · intro h url styles hfind
    exact h ⟨url, isScoped⟩ styles rfl hfind
  · rintro h ⟨url, b⟩ styles hd hfind
    obtain rfl : b = isScoped := hd
    exact h url styles hfind

/-- The imports of a stylesheet that can be met can be met. -/
theorem Dependency.IsKeyed.of_mem_dependencies {met : Dependency → Prop}
    (hmet : IsKeyed files met) {url css : Text} (hurl : met ⟨url, isScoped⟩)
    (hfile : files.lookup url = some css) :
    ∀ d ∈ (Compiled.ofStylesheet s isScoped url css).dependencies, met d := by
  intro d hd
  rw [Compiled.dependencies_ofStylesheet] at hd
  obtain ⟨v, hv, rfl⟩ := List.mem_map.mp hd
  exact hmet.imports ⟨url, isScoped⟩ v hurl ⟨css, hfile, hv⟩

theorem Cache.IsCompleteFor.insert {c : Cache} {ds : Dependency → Prop}
    (h : c.IsCompleteFor s files ds) (hds : Dependency.IsKeyed files ds) {d : Dependency}
    {styles : List Text} (hd : ds d) (hfind : c.find? d.key = none)
    (hcomplete : Complete s d.isScoped files [d.url] styles) :
    (c.insert d.key styles).IsCompleteFor s files ds := by
  intro e styles' he hstyles
  rw [Cache.find?_insert hfind] at hstyles
  by_cases hkey : e.key = d.key
  · rw [if_pos hkey] at hstyles
    rw [hds.key_injective e d he hd hkey, ← Option.some.inj hstyles]
    exact hcomplete
  · rw [if_neg hkey] at hstyles
    exact h e styles' he hstyles

/-! ## Loading with a complete cache -/

/-- Behind a path of imports, and with a cache that is complete for all that can be met, loading is
direct, and what it adds to the cache is complete. -/
theorem Loads.direct_of_isKeyed {depth : Nat} {path : List Text} {ds : List Dependency}
    {st st' : Store} {out : Except (LoadError Unit) (List Text)} {met : Dependency → Prop}
    (hmet : Dependency.IsKeyed files met) (urls : List Text)
    (h : Loads s (Source.ofFiles files).read depth path ds st out st')
    (hds : ds = urls.map fun url => ⟨url, isScoped⟩) (hall : ∀ d ∈ ds, met d)
    (hpath : ImportPath files path urls) (hdepth : files.length < depth + path.length)
    (hcache : st.cache.IsCompleteFor s files met) :
    out = directAll s files path ds ∧ st'.cache.IsCompleteFor s files met ∧
      ∀ styles, out = .ok styles → Complete s isScoped files urls styles := by
  induction h generalizing urls with
  | nil =>
    obtain rfl := List.map_eq_nil_iff.mp hds.symm
    refine ⟨rfl, hcache, fun styles hout => ?_⟩
    rw [← Except.ok.inj hout]
    exact .nil
  | deep =>
    have := hpath.length_le
    omega
  | cached hfind hrest ih =>
    obtain ⟨url, rest, rfl, rfl, rfl⟩ := List.map_eq_cons_iff.mp hds.symm
    rw [List.forall_mem_cons] at hall
    have hcomplete := hcache _ _ hall.1 hfind
    obtain ⟨hout, hcache', hok⟩ :=
      ih _ rfl hall.2 (hpath.mono (List.subset_cons_self _ _)) hdepth hcache
    refine ⟨?_, hcache', fun styles hstyles => ?_⟩
    · rw [directAll_cons_of_ok (hcomplete.direct_eq hpath), hout]
    · obtain ⟨others, hothers, rfl⟩ := exists_of_map_eq_ok hstyles
      exact hcomplete.append (hok others hothers)
  | cyclic hfind hmem =>
    exact ⟨(directAll_cons_of_error (direct_of_mem hmem)).symm, hcache, nofun⟩
  | failed hfind hmem hread =>
    have hfile := Source.read_ofFiles_eq_error.mp hread
    exact ⟨(directAll_cons_of_error (direct_of_none hmem hfile)).symm, hcache, nofun⟩
  | stopped hfind hmem hread himports ih =>
    obtain ⟨url, rest, rfl, rfl, rfl⟩ := List.map_eq_cons_iff.mp hds.symm
    rw [List.forall_mem_cons] at hall
    have hfile := Source.read_ofFiles_eq_ok.mp hread
    obtain ⟨hout, hcache', -⟩ := ih _ rfl (hmet.of_mem_dependencies hall.1 hfile)
      (hpath.extend hmem hfile) (by rw [List.length_append, List.length_singleton]; omega) hcache
    refine ⟨?_, hcache', nofun⟩
    refine (directAll_cons_of_error ?_).symm
    rw [direct_of_some hmem hfile, ← hout]
    rfl
  | @loaded depth path d ds st st₁ st' css imported out hfind hmem hread himports hrest ihimports
      ihrest =>
    obtain ⟨url, rest, rfl, rfl, rfl⟩ := List.map_eq_cons_iff.mp hds.symm
    rw [List.forall_mem_cons] at hall
    have hfile := Source.read_ofFiles_eq_ok.mp hread
    obtain ⟨himported, hcache₁, hok₁⟩ := ihimports _ rfl
      (hmet.of_mem_dependencies hall.1 hfile) (hpath.extend hmem hfile)
      (by rw [List.length_append, List.length_singleton]; omega) hcache
    have hcomplete : Complete s isScoped files [url]
        ((Compiled.ofStylesheet s isScoped url css).styles ++ imported) := by
      rw [← List.append_nil (_ ++ imported)]
      exact .cons hfile (hok₁ imported rfl) .nil
    have hnew := himports.find?_key_eq_none hfind
    obtain ⟨hout, hcache', hok⟩ := ihrest _ rfl hall.2 (hpath.mono (List.subset_cons_self _ _))
      hdepth (hcache₁.insert hmet hall.1 hnew hcomplete)
    refine ⟨?_, hcache', fun styles hstyles => ?_⟩
    · rw [directAll_cons_of_ok (hcomplete.direct_eq hpath), hout]
    · obtain ⟨others, hothers, rfl⟩ := exists_of_map_eq_ok hstyles
      exact hcomplete.append (hok others hothers)

/-- A loader with a limit that all files fit under loads directly what has a key of its own. -/
theorem Loader.load_eq_directLoad_of_isKeyed {limit : Nat} (hlimit : files.length < limit)
    {met : Dependency → Prop} (hmet : Dependency.IsKeyed files met) {url : Text}
    (hurl : Url.isResolvable url → met ⟨url, isScoped⟩) (st : Store)
    (hcache : st.cache.IsCompleteFor s files met) :
    let loaded := Loader.load ⟨s, { Source.ofFiles files with depth := limit }⟩ url isScoped st
    loaded.1 = directLoad s files url isScoped ∧ loaded.2.cache.IsCompleteFor s files met := by
  intro loaded
  by_cases hresolvable : Url.isResolvable url
  · have hloads :=
      loads_load ⟨s, { Source.ofFiles files with depth := limit }⟩ hresolvable isScoped st
    obtain ⟨hout, hcache', -⟩ := hloads.direct_of_isKeyed hmet [url] rfl
      (by simpa using hurl hresolvable) (.nil _ _) hlimit hcache
    rw [directAll_singleton] at hout
    rw [directLoad, if_pos hresolvable]
    exact ⟨hout, hcache'⟩
  · have hload : loaded = (.error (.unresolvable url), st) :=
      Loader.load_of_not_isResolvable _ hresolvable isScoped st
    rw [directLoad, if_neg hresolvable, hload]
    exact ⟨rfl, hcache⟩

/-- Behind a path of imports, and with a complete cache, loading is direct, and what it adds to the
cache is complete. -/
theorem Loads.transparent {depth : Nat} {path : List Text} {ds : List Dependency}
    {st st' : Store} {out : Except (LoadError Unit) (List Text)} (urls : List Text)
    (h : Loads s (Source.ofFiles files).read depth path ds st out st')
    (hds : ds = urls.map fun url => ⟨url, isScoped⟩) (hpath : ImportPath files path urls)
    (hdepth : files.length < depth + path.length) (hcache : st.cache.IsComplete s isScoped files) :
    out = directAll s files path ds ∧ st'.cache.IsComplete s isScoped files ∧
      ∀ styles, out = .ok styles → Complete s isScoped files urls styles := by
  have hall : ∀ d ∈ ds, d.isScoped = isScoped := by simp [hds]
  rw [← Cache.isCompleteFor_form] at hcache ⊢
  exact h.direct_of_isKeyed (Dependency.isKeyed_form isScoped files) urls hds hall hpath hdepth
    hcache

/-- A loader with a limit that all files fit under loads directly. -/
theorem Loader.load_eq_directLoad {limit : Nat} (hlimit : files.length < limit) (url : Text)
    (st : Store) (hcache : st.cache.IsComplete s isScoped files) :
    let loaded := Loader.load ⟨s, { Source.ofFiles files with depth := limit }⟩ url isScoped st
    loaded.1 = directLoad s files url isScoped ∧ loaded.2.cache.IsComplete s isScoped files := by
  intro loaded
  obtain ⟨hout, hcache'⟩ := Loader.load_eq_directLoad_of_isKeyed hlimit
    (Dependency.isKeyed_form isScoped files) (fun _ => rfl) st (Cache.isCompleteFor_form.mpr hcache)
  exact ⟨hout, Cache.isCompleteFor_form.mp hcache'⟩

/-! ## Sessions of loads -/

namespace Session

/-- What the steps of a session answer, in order. -/
def answers (s : Scope) (session : Session) : List Step → List Answer
  | [] => []
  | step :: steps =>
    (session.step s step).1 :: answers s (session.step s step).2 steps

/-- The session still has `files`, and a complete cache. -/
structure IsComplete (session : Session) (s : Scope) (isScoped : Bool)
    (files : List (Text × Text)) : Prop where
  files_eq : session.files = files
  cache : session.cache.IsComplete s isScoped files

theorem isComplete_start (s : Scope) (isScoped : Bool) (files : List (Text × Text)) :
    IsComplete { files } s isScoped files :=
  ⟨rfl, fun _ _ h => by cases h⟩

theorem IsComplete.step_load {session : Session} (h : session.IsComplete s isScoped files)
    (url : Text) :
    (session.step s (.load url isScoped)).1.result = (directLoad s files url isScoped).map some ∧
      (session.step s (.load url isScoped)).2.IsComplete s isScoped files := by
  obtain ⟨hfiles, hcache⟩ := h
  obtain ⟨hout, hcache'⟩ := Loader.load_eq_directLoad (Nat.lt_succ_self _) url
    { cache := session.cache } hcache
  rw [step, loading, hfiles]
  exact ⟨congrArg (Except.map some) hout, rfl, hcache'⟩

theorem IsComplete.run_loads {session : Session} (h : session.IsComplete s isScoped files)
    (urls : List Text) :
    (run s session (urls.map (.load · isScoped))).IsComplete s isScoped files := by
  induction urls generalizing session with
  | nil => exact h
  | cons url urls ih => exact ih (h.step_load url).2

theorem IsComplete.answers_loads {session : Session} (h : session.IsComplete s isScoped files)
    (urls : List Text) :
    (answers s session (urls.map (.load · isScoped))).map (·.result) =
      urls.map fun url => (directLoad s files url isScoped).map some := by
  induction urls generalizing session with
  | nil => rfl
  | cons url urls ih =>
    obtain ⟨hresult, hnext⟩ := h.step_load url
    rw [List.map_cons, answers, List.map_cons, hresult, ih hnext, List.map_cons]

/-- Loads in one form from one set of files answer what loading each of them directly does. -/
theorem answers_loads_eq_directLoad (s : Scope) (isScoped : Bool) (files : List (Text × Text))
    (urls : List Text) :
    (answers s { files } (urls.map (.load · isScoped))).map (·.result) =
      urls.map fun url => (directLoad s files url isScoped).map some :=
  (isComplete_start s isScoped files).answers_loads urls

end Session

end ScopedStyles
