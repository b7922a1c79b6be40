import Mathlib.Data.List.Forall2
import Mathlib.Data.List.Induction
import Mathlib.Data.List.Nodup
import ScopedStyles.Proofs.Loading.Loads

/-!
# The history of a cache

Over a whole session, whatever happens to the files, the cache only grows at its end, and every
entry in it was made from a text that was looked up at some step and from entries before it. The
invariant is `Grown`, whose constructors are the ways a cache comes about: it is empty, or an entry
was added to it.
-/

namespace ScopedStyles

open Text

/-! ## Entries made from earlier ones -/

section Grown

variable {s : Scope} {answered answered' : Text → Text → Prop}

/-- The dependencies are cached in `entries` with these styles. -/
def CachedIn (entries : List (Text × List Text)) (ds : List Dependency)
    (parts : List (List Text)) : Prop :=
  List.Forall₂ (fun d part => (d.key, part) ∈ entries) ds parts

/-- The entry holds a stylesheet with a text that was answered for it, and all that it imports is
cached in `entries`. -/
def MadeFrom (s : Scope) (answered : Text → Text → Prop) (entries : List (Text × List Text))
    (entry : Text × List Text) : Prop :=
  ∃ (d : Dependency) (css : Text) (parts : List (List Text)),
    entry.1 = d.key ∧ answered d.url css ∧
      CachedIn entries (Compiled.ofStylesheet s d.isScoped d.url css).dependencies parts ∧
      entry.2 = (Compiled.ofStylesheet s d.isScoped d.url css).styles ++ parts.flatten

/-- Entries that came in one by one, each under a new key and made from those before it. -/
inductive Grown (s : Scope) (answered : Text → Text → Prop) : List (Text × List Text) → Prop where
  | nil : Grown s answered []
  | snoc {entries : List (Text × List Text)} {entry : Text × List Text}
      (hentries : Grown s answered entries) (hnew : entry.1 ∉ entries.map Prod.fst)
      (hmade : MadeFrom s answered entries entry) : Grown s answered (entries ++ [entry])

namespace Grown

theorem mono {entries : List (Text × List Text)} (h : Grown s answered entries)
    (hle : ∀ url css, answered url css → answered' url css) : Grown s answered' entries := by
  induction h with
  | nil => exact .nil
  | snoc hentries hnew hmade ih =>
    obtain ⟨d, css, parts, hkey, hcss, hparts, hstyles⟩ := hmade
    exact .snoc ih hnew ⟨d, css, parts, hkey, hle _ _ hcss, hparts, hstyles⟩

theorem nodup_keys {entries : List (Text × List Text)} (h : Grown s answered entries) :
    (entries.map Prod.fst).Nodup := by
  induction h with
  | nil => exact List.nodup_nil
  | @snoc entries entry hentries hnew hmade ih =>
    rw [List.map_append, List.nodup_append]
    refine ⟨ih, List.nodup_singleton _, ?_⟩
    rintro key hkey key' hkey' rfl
    rw [List.map_singleton, List.mem_singleton] at hkey'
    exact hnew (hkey' ▸ hkey)

/-- Every entry is made from those before it. -/
theorem madeFrom_take {entries : List (Text × List Text)} (h : Grown s answered entries) {i : Nat}
    {entry : Text × List Text} (hi : entries[i]? = some entry) :
    MadeFrom s answered (entries.take i) entry := by
  induction h with
  | nil => cases hi
  | @snoc entries last hentries hnew hmade ih =>
    by_cases hlt : i < entries.length
    · rw [List.getElem?_append_left hlt] at hi
      rw [List.take_append_of_le_length (Nat.le_of_lt hlt)]
      exact ih hi
    · have hlast := List.getElem?_eq_some_iff.mp hi
      obtain ⟨hbound, heq⟩ := hlast
      rw [List.length_append, List.length_singleton] at hbound
      obtain rfl : i = entries.length := by omega
      rw [List.getElem_concat_length rfl] at heq
      rw [List.take_left, ← heq]
      exact hmade

end Grown

end Grown

/-! ## Loading lets a cache grow -/

/-- A load adds entries at the end, each made from a text that was read. The styles it gives are
those of its dependencies, which are cached after it. -/
theorem Loads.grown {ε : Type} {s : Scope} {read : Text → Except ε Text}
    {answered : Text → Text → Prop} {depth : Nat} {path : List Text} {ds : List Dependency}
    {st st' : Store} {out : Except (LoadError ε) (List Text)}
    (h : Loads s read depth path ds st out st')
    (hanswered : ∀ u ∈ st'.fetched, ∀ css, read u = .ok css → answered u css)
    (hgrown : Grown s answered st.cache.entries) :
    st.cache.entries <+: st'.cache.entries ∧ Grown s answered st'.cache.entries ∧
      ∀ styles, out = .ok styles →
        ∃ parts, CachedIn st'.cache.entries ds parts ∧ styles = parts.flatten := by
  induction h with
  | nil =>
    refine ⟨List.prefix_refl _, hgrown, ?_⟩
    rintro styles hout
    cases hout
    exact ⟨[], .nil, rfl⟩
  | deep => exact ⟨List.prefix_refl _, hgrown, nofun⟩
  | @cached depth path d ds st st' styles out hfind hrest ih =>
    obtain ⟨hgrows, hgrown', hok⟩ := ih hanswered hgrown
    refine ⟨hgrows, hgrown', ?_⟩
    intro all hall
    obtain ⟨others, hothers, rfl⟩ := exists_of_map_eq_ok hall
    obtain ⟨parts, hparts, rfl⟩ := hok others hothers
    have hmem := hgrows.subset (Cache.mem_entries_of_find? hfind)
    exact ⟨styles :: parts, .cons hmem hparts, rfl⟩
  | cyclic hfind hpath => exact ⟨List.prefix_refl _, hgrown, nofun⟩
  | failed hfind hpath hread => exact ⟨List.prefix_refl _, hgrown, nofun⟩
  | stopped hfind hpath hread himports ih =>
    obtain ⟨hgrows, hgrown', -⟩ := ih hanswered hgrown
    exact ⟨hgrows, hgrown', nofun⟩
  | @loaded depth path d ds st st₁ st' css imported out hfind hpath hread himports hrest ihimports
      ihrest =>
    have hfetched := hrest.fetched_isPrefix.subset
    obtain ⟨hgrows₁, hgrown₁, hok₁⟩ :=
      ihimports (fun u hu => hanswered u (hfetched hu)) hgrown
    obtain ⟨parts₁, hparts₁, himported⟩ := hok₁ imported rfl
    -- The imports were loaded in the same form, so none of them took the key.
    have hfind₁ := himports.find?_key_eq_none hfind
    have hentries := Cache.entries_insert hfind₁
      ((Compiled.ofStylesheet s d.isScoped d.url css).styles ++ imported)
    have hurl : d.url ∈ st'.fetched :=
      hfetched (himports.fetched_isPrefix.subset (List.mem_append_right _ List.mem_cons_self))
    have hmade : MadeFrom s answered st₁.cache.entries
        (d.key, (Compiled.ofStylesheet s d.isScoped d.url css).styles ++ imported) :=
      ⟨d, css, parts₁, rfl, hanswered d.url hurl css hread, hparts₁, by rw [himported]⟩
    have hgrown₂ := Grown.snoc hgrown₁ (Cache.find?_eq_none_iff.mp hfind₁) hmade
    rw [← hentries] at hgrown₂
    obtain ⟨hgrows, hgrown', hok⟩ := ihrest hanswered hgrown₂
    rw [hentries] at hgrows
    refine ⟨hgrows₁.trans ((List.prefix_append _ _).trans hgrows), hgrown', ?_⟩
    intro all hall
    obtain ⟨others, hothers, rfl⟩ := exists_of_map_eq_ok hall
    obtain ⟨parts, hparts, rfl⟩ := hok others hothers
    have hmem := hgrows.subset (List.mem_append_right _ List.mem_cons_self)
    exact ⟨_ :: parts, .cons hmem hparts, rfl⟩

/-! ## Sessions -/

namespace Session

/-- At one of the steps the stylesheet at `url` was looked up, and had this text. -/
def Answered (s : Scope) (start : Session) (steps : List Step) (url css : Text) : Prop :=
  ∃ before step, before ++ [step] <+: steps ∧
    url ∈ ((run s start before).step s step).1.fetched ∧
    (run s start before).files.lookup url = some css

theorem Answered.concat {s : Scope} {start : Session} {steps : List Step} {url css : Text}
    (h : Answered s start steps url css) (step : Step) :
    Answered s start (steps ++ [step]) url css := by
  obtain ⟨before, step', hgrows, hurl, hcss⟩ := h
  exact ⟨before, step', hgrows.trans (List.prefix_append _ _), hurl, hcss⟩

theorem run_concat (s : Scope) (start : Session) (steps : List Step) (step : Step) :
    run s start (steps ++ [step]) = ((run s start steps).step s step).2 := by
  rw [run, List.foldl_append]
  rfl

/-- A step does to the cache what some load does, which asks for the urls that the step answers. -/
theorem exists_loads_step (s : Scope) (session : Session) (step : Step) :
    ∃ depth path ds out st',
      Loads s (Source.ofFiles session.files).read depth path ds { cache := session.cache } out st' ∧
        (session.step s step).1.fetched = st'.fetched ∧
        (session.step s step).2.cache = st'.cache := by
  cases step with
  | put url css => exact ⟨0, [], [], _, _, .nil, rfl, rfl⟩
  | remove url => exact ⟨0, [], [], _, _, .nil, rfl, rfl⟩
  | load url isScoped =>
    by_cases hurl : Url.isResolvable url
    · exact ⟨_, _, _, _, _, loads_load ⟨s, .ofFiles session.files⟩ hurl isScoped _, rfl, rfl⟩
    · rw [step_load_of_not_isResolvable s session hurl]
      exact ⟨0, [], [], _, _, .nil, rfl, rfl⟩
  | resolveComponent component =>
    obtain ⟨out, hloads, -⟩ := loads_resolve ⟨s, .ofFiles session.files⟩
      (.ofComponent s component) { cache := session.cache }
    exact ⟨_, _, _, _, _, hloads, rfl, rfl⟩
  | resolveStylesheet url css isScoped =>
    obtain ⟨out, hloads, -⟩ := loads_resolve ⟨s, .ofFiles session.files⟩
      (.ofStylesheet s isScoped url css) { cache := session.cache }
    exact ⟨_, _, _, _, _, hloads, rfl, rfl⟩

/-- A step after others lets the cache grow. -/
theorem step_grown (s : Scope) (start : Session) (steps : List Step) (step : Step)
    (h : Grown s (Answered s start steps) (run s start steps).cache.entries) :
    (run s start steps).cache.entries <+: ((run s start steps).step s step).2.cache.entries ∧
      Grown s (Answered s start (steps ++ [step]))
        ((run s start steps).step s step).2.cache.entries := by
  obtain ⟨depth, path, ds, out, st', hloads, hfetched, hcache⟩ :=
    exists_loads_step s (run s start steps) step
  have hanswered : ∀ u ∈ st'.fetched, ∀ css,
      (Source.ofFiles (run s start steps).files).read u = .ok css →
        Answered s start (steps ++ [step]) u css := by
    intro u hu css hread
    rw [← hfetched] at hu
    exact ⟨steps, step, List.prefix_refl _, hu, Source.read_ofFiles_eq_ok.mp hread⟩
  have hbefore := h.mono fun _ _ hold => hold.concat step
  obtain ⟨hgrows, hgrown, -⟩ := hloads.grown hanswered hbefore
  rw [hcache]
  exact ⟨hgrows, hgrown⟩

theorem run_grown (s : Scope) (start : Session) (steps : List Step)
    (hstart : start.cache.entries = []) :
    Grown s (Answered s start steps) (run s start steps).cache.entries := by
  induction steps using List.reverseRecOn with
  | nil =>
    rw [show run s start [] = start from rfl, hstart]
    exact .nil
  | append_singleton steps step ih =>
    rw [run_concat]
    exact (step_grown s start steps step ih).2

/-- After every step of a session the cache goes on from what it was, holds no key twice, and every
entry in it is made from a text that was looked up for it at some step, with the styles of its
imports taken from entries before it. -/
theorem cache_history (s : Scope) (files : List (Text × Text)) (steps : List Step) (step : Step) :
    let before := run s { files } steps
    let after := (before.step s step).2
    before.cache.entries <+: after.cache.entries ∧ after.cache.keys.Nodup ∧
      ∀ (i : Nat) (key : Text) (styles : List Text), after.cache.entries[i]? = some (key, styles) →
        ∃ (url : Text) (isScoped : Bool) (css : Text) (parts : List (List Text)),
          Dependency.key ⟨url, isScoped⟩ = key ∧
            Answered s { files } (steps ++ [step]) url css ∧
            List.Forall₂ (fun d part => ∃ j < i, after.cache.entries[j]? = some (d.key, part))
              (Compiled.ofStylesheet s isScoped url css).dependencies parts ∧
            styles = (Compiled.ofStylesheet s isScoped url css).styles ++ parts.flatten := by
  intro before after
  obtain ⟨hgrows, hgrown⟩ := step_grown s { files } steps step (run_grown s { files } steps rfl)
  refine ⟨hgrows, hgrown.nodup_keys, ?_⟩
  intro i key styles hi
  obtain ⟨⟨url, isScoped⟩, css, parts, hkey, hcss, hparts, hstyles⟩ := hgrown.madeFrom_take hi
  refine ⟨url, isScoped, css, parts, hkey.symm, hcss, ?_, hstyles⟩
  refine List.Forall₂.imp ?_ hparts
  intro d part hmem
  obtain ⟨j, hj, hentry⟩ := List.mem_take_iff_getElem.mp hmem
  have hlt : j < after.cache.entries.length := Nat.lt_of_lt_of_le hj (Nat.min_le_right _ _)
  refine ⟨j, Nat.lt_of_lt_of_le hj (Nat.min_le_left _ _), ?_⟩
  rw [List.getElem?_eq_getElem hlt, hentry]

end Session

end ScopedStyles
