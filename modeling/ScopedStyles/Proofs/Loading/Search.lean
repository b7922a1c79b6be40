import Mathlib.Data.List.Chain
import ScopedStyles.Proofs.Loading.Cycles

/-!
# Loading as a search

A load searches the graph of imports depth first, and does not go into what is in the cache. What
it asks for are the stylesheets in the order in which they are met first before their imports, and
what it keeps are the same ones in the order in which they are met first behind them
(`Loads.unfolds`). A load that fails keeps all of them but those on the path of imports on which it
ends (`Loads.visits`).
-/

namespace ScopedStyles

open Text Relation

/-! ## First occurrences -/

section Fresh

variable {done l : List Text} {v : Text}

/-- The urls of a list that are not in `done`, each where it occurs first. -/
def fresh (done l : List Text) : List Text := (l.filter (!done.contains ·)).eraseDups

theorem fresh_eq (done l : List Text) : fresh done l = (l.filter (· ∉ done)).eraseDups := by
  simp [fresh]

theorem mem_fresh : v ∈ fresh done l ↔ v ∈ l ∧ v ∉ done := by
  simp [fresh_eq]

theorem fresh_nil_left (l : List Text) : fresh [] l = l.eraseDups := by
  simp [fresh_eq]

theorem fresh_eq_nil (h : l ⊆ done) : fresh done l = [] := by
  have hnone : l.filter (· ∉ done) = [] := List.filter_eq_nil_iff.mpr fun v hv => by simp [h hv]
  rw [fresh_eq, hnone]
  rfl

theorem fresh_append (done l l' : List Text) :
    fresh done (l ++ l') = fresh done l ++ fresh (done ++ l) l' := by
  rw [fresh_eq, List.filter_append, List.eraseDups_append, fresh_eq, fresh_eq]
  congr 2
  rw [List.removeAll, List.filter_filter]
  refine List.filter_congr fun v hv => ?_
  by_cases hdone : v ∈ done <;> simp [hdone]

theorem fresh_cons (h : v ∉ done) (l : List Text) :
    fresh done (v :: l) = v :: fresh (done ++ [v]) l := by
  have hone : fresh done [v] = [v] := by simp [fresh_eq, h, List.eraseDups_cons]
  rw [← List.singleton_append, fresh_append, hone, List.singleton_append]

theorem fresh_congr {done' : List Text} (h : ∀ v ∈ l, v ∈ done ↔ v ∈ done') :
    fresh done l = fresh done' l := by
  have hfilter : l.filter (· ∉ done) = l.filter (· ∉ done') :=
    List.filter_congr fun v hv => by simp [h v hv]
  rw [fresh_eq, fresh_eq, hfilter]

theorem fresh_append_of_subset (h : l ⊆ done) (l' : List Text) :
    fresh done (l ++ l') = fresh done l' := by
  rw [fresh_append, fresh_eq_nil h, List.nil_append]
  refine fresh_congr fun w _ => ?_
  simpa using fun hw : w ∈ l => h hw

/-- A new url stays in front of what is behind it. -/
theorem fresh_cons_append (hdone : v ∉ done) (hl : v ∉ l) (l' : List Text) :
    fresh done (v :: l ++ l') = v :: fresh done l ++ fresh (done ++ v :: l) l' := by
  have hfirst : fresh (done ++ [v]) l = fresh done l :=
    fresh_congr fun w hw => by simp [ne_of_mem_of_not_mem hw hl]
  rw [fresh_append, fresh_cons hdone, hfirst]

/-- A new url stays behind what is in front of it. -/
theorem fresh_append_cons (hdone : v ∉ done) (hl : v ∉ l) (l' : List Text) :
    fresh done (l ++ v :: l') = fresh done l ++ [v] ++ fresh (done ++ v :: l) l' := by
  have hboth : v ∉ done ++ l := by simp [hdone, hl]
  have hrest : fresh (done ++ l ++ [v]) l' = fresh (done ++ v :: l) l' :=
    fresh_congr fun w _ => by simp [or_comm]
  rw [fresh_append, fresh_cons hboth, hrest, List.append_assoc, List.singleton_append]

end Fresh

/-! ## The tree of imports -/

section Unfolds

variable {files : List (Text × Text)} {known : Text → Prop}

/-- The stylesheet at `u` imports the one at `v`, which is not known. -/
def Leads (files : List (Text × Text)) (known : Text → Prop) (u v : Text) : Prop :=
  Imports files u v ∧ ¬ known v

/-- The imports of the stylesheets at `urls` are followed, again and again wherever they are
imported, except into what is known. `pre` has each stylesheet in front of its imports, and `post`
behind them. -/
inductive Unfolds (files : List (Text × Text)) (known : Text → Prop) :
    (urls pre post : List Text) → Prop where
  /-- Nothing is left to follow. -/
  | nil : Unfolds files known [] [] []
  /-- The first stylesheet is known. -/
  | skip {url : Text} {urls pre post : List Text} (hknown : known url)
      (hrest : Unfolds files known urls pre post) : Unfolds files known (url :: urls) pre post
  /-- The first stylesheet is not known. -/
  | visit {url css : Text} {urls pre pre' post post' : List Text} (hnew : ¬ known url)
      (hfile : files.lookup url = some css)
      (himports : Unfolds files known (Import.extract url css).urls pre post)
      (hrest : Unfolds files known urls pre' post') :
      Unfolds files known (url :: urls) (url :: pre ++ pre') (post ++ url :: post')

namespace Unfolds

variable {urls pre post : List Text} {u v : Text}

/-- What is met in front of its imports is met behind them. -/
theorem mem_post_iff (h : Unfolds files known urls pre post) : v ∈ post ↔ v ∈ pre := by
  induction h with
  | nil => rfl
  | skip hknown hrest ih => exact ih
  | visit hnew hfile himports hrest ihimports ihrest =>
    simp only [List.cons_append, List.mem_append, List.mem_cons, ihimports, ihrest]
    exact or_left_comm

/-- All that is not known to begin with is met. -/
theorem mem_pre (h : Unfolds files known urls pre post) (hu : u ∈ urls) (hnew : ¬ known u) :
    u ∈ pre := by
  induction h with
  | nil => exact absurd hu List.not_mem_nil
  | skip hknown hrest ih =>
    rcases List.mem_cons.mp hu with rfl | hu
    · exact absurd hknown hnew
    · exact ih hu
  | visit _ hfile himports hrest ihimports ihrest =>
    rcases List.mem_cons.mp hu with rfl | hu
    · exact List.mem_cons_self
    · exact List.mem_append_right _ (ihrest hu)

/-- Below each stylesheet that is met its own tree has been unfolded. -/
theorem of_mem (h : Unfolds files known urls pre post) (hv : v ∈ pre) :
    ¬ known v ∧ ∃ css pre' post', files.lookup v = some css ∧
      Unfolds files known (Import.extract v css).urls pre' post' ∧ pre' ⊆ pre := by
  induction h with
  | nil => exact absurd hv List.not_mem_nil
  | skip hknown hrest ih => exact ih hv
  | @visit url css urls pre₁ pre₂ post₁ post₂ hnew hfile himports hrest ihimports ihrest =>
    have hfirst : pre₁ ⊆ url :: pre₁ ++ pre₂ := fun w hw => by simp [hw]
    have hothers : pre₂ ⊆ url :: pre₁ ++ pre₂ := List.subset_append_right _ _
    rcases List.mem_append.mp hv with hv | hv
    · rcases List.mem_cons.mp hv with rfl | hv
      · exact ⟨hnew, css, pre₁, post₁, hfile, himports, hfirst⟩
      · obtain ⟨hv, css', pre', post', hcss', hunfolds, hsub⟩ := ihimports hv
        exact ⟨hv, css', pre', post', hcss', hunfolds, List.Subset.trans hsub hfirst⟩
    · obtain ⟨hv, css', pre', post', hcss', hunfolds, hsub⟩ := ihrest hv
      exact ⟨hv, css', pre', post', hcss', hunfolds, List.Subset.trans hsub hothers⟩

/-- What is met leads to what is met. -/
theorem mem_of_leads (h : Unfolds files known urls pre post) (hu : u ∈ pre)
    (hleads : Leads files known u v) : v ∈ pre := by
  obtain ⟨⟨css, hfile, hv⟩, hnew⟩ := hleads
  obtain ⟨-, css', pre', post', hfile', hunfolds, hsub⟩ := h.of_mem hu
  obtain rfl : css = css' := Option.some.inj (hfile.symm.trans hfile')
  exact hsub (hunfolds.mem_pre hv hnew)

/-- What is met can be reached. -/
theorem exists_reaches (h : Unfolds files known urls pre post) (hv : v ∈ pre) :
    ∃ u ∈ urls, ¬ known u ∧ ReflTransGen (Leads files known) u v := by
  induction h with
  | nil => exact absurd hv List.not_mem_nil
  | skip hknown hrest ih =>
    obtain ⟨u, hu, hreach⟩ := ih hv
    exact ⟨u, List.mem_cons_of_mem _ hu, hreach⟩
  | @visit url css urls pre₁ pre₂ post₁ post₂ hnew hfile himports hrest ihimports ihrest =>
    rcases List.mem_append.mp hv with hv | hv
    · refine ⟨url, List.mem_cons_self, hnew, ?_⟩
      rcases List.mem_cons.mp hv with rfl | hv
      · exact .refl
      · obtain ⟨u, hu, hnew', hreach⟩ := ihimports hv
        exact .head ⟨⟨css, hfile, hu⟩, hnew'⟩ hreach
    · obtain ⟨u, hu, hreach⟩ := ihrest hv
      exact ⟨u, List.mem_cons_of_mem _ hu, hreach⟩

/-- What is met is what can be reached without going through what is known. -/
theorem mem_pre_iff (h : Unfolds files known [u] pre post) :
    v ∈ pre ↔ ¬ known u ∧ ReflTransGen (Leads files known) u v := by
  constructor
  · intro hv
    obtain ⟨w, hw, hreach⟩ := h.exists_reaches hv
    rwa [List.mem_singleton.mp hw] at hreach
  · rintro ⟨hnew, hreach⟩
    induction hreach with
    | refl => exact h.mem_pre List.mem_cons_self hnew
    | tail _ hleads ih => exact h.mem_of_leads ih hleads

/-- From what is met nothing can be followed for ever. -/
theorem acc (h : Unfolds files known urls pre post) :
    ∀ v ∈ pre, Acc (Function.swap (Leads files known)) v := by
  induction h with
  | nil => simp
  | skip hknown hrest ih => exact ih
  | @visit url css urls pre₁ pre₂ post₁ post₂ hnew hfile himports hrest ihimports ihrest =>
    intro v hv
    rcases List.mem_append.mp hv with hv | hv
    · rcases List.mem_cons.mp hv with rfl | hv
      · refine Acc.intro v ?_
        rintro w ⟨⟨css', hfile', hw⟩, hnew'⟩
        obtain rfl : css = css' := Option.some.inj (hfile.symm.trans hfile')
        exact ihimports w (himports.mem_pre hw hnew')
      · exact ihimports v hv
    · exact ihrest v hv

end Unfolds

end Unfolds

/-! ## What one load does to the store -/

/-- The cache has the stylesheet in this form. -/
def Cache.Holds (c : Cache) (isScoped : Bool) (url : Text) : Prop :=
  Dependency.key ⟨url, isScoped⟩ ∈ c.keys

theorem Cache.not_holds_iff {c : Cache} {isScoped : Bool} {url : Text} :
    ¬ c.Holds isScoped url ↔ c.find? (Dependency.key ⟨url, isScoped⟩) = none :=
  Cache.find?_eq_none_iff.symm

/-- On the way from `st` to `st'` the urls `fetched` were asked for in this order, and the
stylesheets at `kept` came into the cache in this order, behind what was there. -/
structure Store.Goes (isScoped : Bool) (st st' : Store) (fetched kept : List Text) : Prop where
  fetched_eq : st'.fetched = st.fetched ++ fetched
  entries_isPrefix : st.cache.entries <+: st'.cache.entries
  keys_eq : st'.cache.keys = st.cache.keys ++ kept.map fun url => Dependency.key ⟨url, isScoped⟩

namespace Store.Goes

variable {isScoped : Bool} {st st₁ st' : Store} {fetched kept fetched' kept' : List Text}

theorem refl (isScoped : Bool) (st : Store) : st.Goes isScoped st [] [] :=
  ⟨(List.append_nil _).symm, List.prefix_refl _, (List.append_nil _).symm⟩

theorem trans (h : st.Goes isScoped st₁ fetched kept) (h' : st₁.Goes isScoped st' fetched' kept') :
    st.Goes isScoped st' (fetched ++ fetched') (kept ++ kept') where
  fetched_eq := by rw [h'.fetched_eq, h.fetched_eq, List.append_assoc]
  entries_isPrefix := h.entries_isPrefix.trans h'.entries_isPrefix
  keys_eq := by rw [h'.keys_eq, h.keys_eq, List.map_append, List.append_assoc]

theorem fetch (isScoped : Bool) (st : Store) (url : Text) :
    st.Goes isScoped { st with fetched := st.fetched ++ [url] } [url] [] :=
  ⟨rfl, List.prefix_refl _, (List.append_nil _).symm⟩

theorem keep {url : Text} (h : ¬ st.cache.Holds isScoped url) (styles : List Text) :
    st.Goes isScoped
      { st with cache := st.cache.insert (Dependency.key ⟨url, isScoped⟩) styles } [] [url] where
  fetched_eq := (List.append_nil _).symm
  entries_isPrefix := by
    rw [Cache.entries_insert (Cache.not_holds_iff.mp h)]
    exact List.prefix_append _ _
  keys_eq := by
    rw [Cache.keys, Cache.entries_insert (Cache.not_holds_iff.mp h), List.map_append]
    rfl

/-- A stylesheet is asked for, its imports are loaded, and it is kept. -/
theorem visit {url : Text}
    (h : Goes isScoped { st with fetched := st.fetched ++ [url] } st₁ fetched kept)
    (hnew : ¬ st₁.cache.Holds isScoped url) (styles : List Text) :
    st.Goes isScoped
      { st₁ with cache := st₁.cache.insert (Dependency.key ⟨url, isScoped⟩) styles }
      (url :: fetched) (kept ++ [url]) := by
  have hgoes := ((fetch isScoped st url).trans h).trans (keep hnew styles)
  rwa [List.append_nil] at hgoes

theorem holds_iff (h : st.Goes isScoped st' fetched kept) {url : Text} :
    st'.cache.Holds isScoped url ↔ st.cache.Holds isScoped url ∨ url ∈ kept := by
  rw [Cache.Holds, h.keys_eq, List.mem_append, List.mem_map]
  refine or_congr_right ⟨?_, fun hmem => ⟨url, hmem, rfl⟩⟩
  rintro ⟨u, hu, hkey⟩
  exact Dependency.key_injective hkey ▸ hu

end Store.Goes

/-! ## Loads that succeed -/

section Search

variable {s : Scope} {files : List (Text × Text)} {isScoped : Bool}

/-- The stylesheets in `done` are not known, and all that their imports lead to is in `done` too. -/
def Unfolded (files : List (Text × Text)) (known : Text → Prop) (done : List Text) : Prop :=
  ∀ v ∈ done, ¬ known v ∧ ∃ css pre post, files.lookup v = some css ∧
    Unfolds files known (Import.extract v css).urls pre post ∧ pre ⊆ done

theorem Unfolded.append {known : Text → Prop} {done done' : List Text}
    (h : Unfolded files known done) (h' : Unfolded files known done') :
    Unfolded files known (done ++ done') := by
  intro v hv
  rcases List.mem_append.mp hv with hv | hv
  · obtain ⟨hnew, css, pre, post, hfile, hunfolds, hsub⟩ := h v hv
    exact ⟨hnew, css, pre, post, hfile, hunfolds,
      List.Subset.trans hsub (List.subset_append_left _ _)⟩
  · obtain ⟨hnew, css, pre, post, hfile, hunfolds, hsub⟩ := h' v hv
    exact ⟨hnew, css, pre, post, hfile, hunfolds,
      List.Subset.trans hsub (List.subset_append_right _ _)⟩

/-- A stylesheet has been unfolded, and all below it, when its imports have. -/
theorem Unfolds.unfolded {known : Text → Prop} {url css : Text} {pre post : List Text}
    (h : Unfolds files known (Import.extract url css).urls pre post) (hnew : ¬ known url)
    (hfile : files.lookup url = some css) : Unfolded files known (url :: pre) := by
  intro v hv
  rcases List.mem_cons.mp hv with rfl | hv
  · exact ⟨hnew, css, pre, post, hfile, h, List.subset_cons_self v pre⟩
  · obtain ⟨hv, css', pre', post', hfile', hunfolds, hsub⟩ := h.of_mem hv
    exact ⟨hv, css', pre', post', hfile', hunfolds,
      List.Subset.trans hsub (List.subset_cons_self url pre)⟩

/-- A load that succeeds unfolds the tree of imports, and passes by what was unfolded before. -/
theorem Loads.unfolds {depth : Nat} {path urls done styles : List Text} {known : Text → Prop}
    {ds : List Dependency} {st st' : Store} {out : Except (LoadError Unit) (List Text)}
    (h : Loads s (Source.ofFiles files).read depth path ds st out st')
    (hds : ds = urls.map fun url => ⟨url, isScoped⟩) (hout : out = .ok styles)
    (hheld : ∀ v, st.cache.Holds isScoped v ↔ known v ∨ v ∈ done)
    (hdone : Unfolded files known done) :
    ∃ pre post, Unfolds files known urls pre post ∧
      st.Goes isScoped st' (fresh done pre) (fresh done post) := by
  induction h generalizing urls done styles with
  | nil =>
    obtain rfl := List.map_eq_nil_iff.mp hds.symm
    exact ⟨[], [], .nil, .refl isScoped _⟩
  | deep => cases hout
  | @cached depth path d ds st st' cachedStyles out hfind hrest ih =>
    obtain ⟨url, rest, rfl, rfl, rfl⟩ := List.map_eq_cons_iff.mp hds.symm
    obtain ⟨others, hothers, -⟩ := exists_of_map_eq_ok hout
    obtain ⟨pre, post, hunfolds, hgoes⟩ := ih rfl hothers hheld hdone
    have hholds : st.cache.Holds isScoped url := by
      by_contra hnot
      rw [Cache.not_holds_iff.mp hnot] at hfind
      cases hfind
    by_cases hknown : known url
    · exact ⟨pre, post, .skip hknown hunfolds, hgoes⟩
    · -- it was unfolded before, and nothing below it is met first here
      have hmem : url ∈ done := ((hheld url).mp hholds).resolve_left hknown
      obtain ⟨-, css, pre', post', hfile, hunfolds', hsub⟩ := hdone url hmem
      have hpost : post' ++ [url] ⊆ done := by
        intro v hv
        rcases List.mem_append.mp hv with hv | hv
        · exact hsub (hunfolds'.mem_post_iff.mp hv)
        · exact List.mem_singleton.mp hv ▸ hmem
      refine ⟨url :: pre' ++ pre, post' ++ url :: post, .visit hknown hfile hunfolds' hunfolds, ?_⟩
      rw [fresh_append_of_subset (List.cons_subset.mpr ⟨hmem, hsub⟩), List.append_cons,
        fresh_append_of_subset hpost]
      exact hgoes
  | cyclic hfind hpath => cases hout
  | failed hfind hpath hread => cases hout
  | stopped hfind hpath hread himports ih => cases hout
  | @loaded depth path d ds st st₁ st' css imported out hfind hpath hread himports hrest ihimports
      ihrest =>
    obtain ⟨url, rest, rfl, rfl, rfl⟩ := List.map_eq_cons_iff.mp hds.symm
    obtain ⟨others, hothers, -⟩ := exists_of_map_eq_ok hout
    have hfile := Source.read_ofFiles_eq_ok.mp hread
    have hnot : ¬ (known url ∨ url ∈ done) := mt (hheld url).mpr (Cache.not_holds_iff.mpr hfind)
    obtain ⟨hknown, hurl⟩ := not_or.mp hnot
    obtain ⟨pre, post, hunfolds, hgoes⟩ := ihimports rfl rfl hheld hdone
    have hnew : ¬ st₁.cache.Holds isScoped url :=
      Cache.not_holds_iff.mpr (himports.find?_key_eq_none hfind)
    have hpost : url ∉ post := fun hmem =>
      hnew (hgoes.holds_iff.mpr (.inr (mem_fresh.mpr ⟨hmem, hurl⟩)))
    have hpre : url ∉ pre := mt hunfolds.mem_post_iff.mpr hpost
    have hvisit := hgoes.visit hnew
      ((Compiled.ofStylesheet s isScoped url css).styles ++ imported)
    have hnow : ∀ v, st.cache.Holds isScoped v ∨ v ∈ fresh done post ++ [url] ↔
        known v ∨ v ∈ done ++ url :: pre := by
      intro v
      simp only [hheld v, List.mem_append, mem_fresh, hunfolds.mem_post_iff, List.mem_cons]
      tauto
    obtain ⟨pre', post', hunfolds', hgoes'⟩ := ihrest rfl hothers
      (fun v => hvisit.holds_iff.trans (hnow v)) (hdone.append (hunfolds.unfolded hknown hfile))
    have hsame : fresh (done ++ url :: post) post' = fresh (done ++ url :: pre) post' :=
      fresh_congr fun v _ => by simp [hunfolds.mem_post_iff]
    refine ⟨url :: pre ++ pre', post ++ url :: post', .visit hknown hfile hunfolds hunfolds', ?_⟩
    rw [fresh_cons_append hurl hpre, fresh_append_cons hurl hpost, hsame]
    exact hvisit.trans hgoes'

/-! ## Loads that fail -/

/-- A load of the stylesheets at `urls`, behind `path`, has stopped with `e` at the stylesheet at
`u`, which is imported over `importers`. Of what was asked for, all but these have been kept. -/
structure Stops (files : List (Text × Text)) (isScoped : Bool) (path urls : List Text)
    (cache : Cache) (fetched kept importers : List Text) (u : Text) (e : LoadError Unit) :
    Prop where
  chain : (importers ++ [u]).IsChain (Imports files)
  head_mem : ∀ v ∈ (importers ++ [u]).head?, v ∈ urls
  importers_subset : importers ⊆ fetched
  cause : e = .failed u () ∧ files.lookup u = none ∧ u ∈ fetched ∨
    e = .cyclic u ∧ u ∈ path ++ importers
  perm : kept.Perm (fetched.filter (· ∉ importers ++ [u]))
  not_holds : ∀ v ∈ importers ++ [u], ¬ cache.Holds isScoped v

namespace Stops

variable {url u css : Text} {path urls fetched kept fetched' kept' importers : List Text}
  {cache : Cache} {e : LoadError Unit}

/-- What has been passed by makes no difference. -/
theorem skip (h : Stops files isScoped path urls cache fetched kept importers u e) (url : Text) :
    Stops files isScoped path (url :: urls) cache fetched kept importers u e where
  __ := h
  head_mem := fun v hv => List.mem_cons_of_mem _ (h.head_mem v hv)

/-- What stops the imports of a stylesheet stops the stylesheet. -/
theorem importer
    (h : Stops files isScoped (path ++ [url]) (Import.extract url css).urls cache fetched kept
      importers u e)
    (hfile : files.lookup url = some css) (hurl : url ∉ fetched)
    (hnew : ¬ cache.Holds isScoped url) :
    Stops files isScoped path (url :: urls) cache (url :: fetched) kept (url :: importers) u e where
  chain := h.chain.cons fun v hv => ⟨css, hfile, h.head_mem v hv⟩
  head_mem := by simp
  importers_subset := List.cons_subset_cons url h.importers_subset
  cause := by
    refine h.cause.imp ?_ ?_
    · rintro ⟨he, hmissing, hu⟩
      exact ⟨he, hmissing, List.mem_cons_of_mem _ hu⟩
    · rintro ⟨he, hu⟩
      exact ⟨he, by simpa using hu⟩
  perm := by
    have hfilter : fetched.filter (· ∉ url :: importers ++ [u]) =
        fetched.filter (· ∉ importers ++ [u]) :=
      List.filter_congr fun v hv => by simp [ne_of_mem_of_not_mem hv hurl]
    rw [List.filter_cons_of_neg (by simp), hfilter]
    exact h.perm
  not_holds := List.forall_mem_cons.mpr ⟨hnew, h.not_holds⟩

/-- What has been kept by now is still there in the end, so that it is not on the path. -/
theorem behind (h : Stops files isScoped path urls cache fetched' kept' importers u e)
    (hkept : kept.Perm fetched) (hheld : ∀ v ∈ fetched, cache.Holds isScoped v) :
    Stops files isScoped path urls cache (fetched ++ fetched') (kept ++ kept') importers u e where
  __ := h
  importers_subset := List.subset_append_of_subset_right _ h.importers_subset
  cause := by
    refine h.cause.imp_left ?_
    rintro ⟨he, hmissing, hu⟩
    exact ⟨he, hmissing, List.mem_append_right _ hu⟩
  perm := by
    have hall : fetched.filter (· ∉ importers ++ [u]) = fetched :=
      List.filter_eq_self.mpr fun v hv => decide_eq_true fun hmem => h.not_holds v hmem (hheld v hv)
    rw [List.filter_append, hall]
    exact hkept.append h.perm

end Stops

/-- What is true of what was asked for and what was kept when loading is over. -/
def Outcome (files : List (Text × Text)) (isScoped : Bool) (path urls : List Text) (cache : Cache)
    (fetched kept : List Text) : Except (LoadError Unit) (List Text) → Prop
  | .ok _ => kept.Perm fetched
  | .error e => ∃ importers u, Stops files isScoped path urls cache fetched kept importers u e

/-- Loading asks for no stylesheet twice, and for none that is being loaded or is in the cache. -/
theorem Loads.visits {depth : Nat} {path urls : List Text} {ds : List Dependency} {st st' : Store}
    {out : Except (LoadError Unit) (List Text)}
    (h : Loads s (Source.ofFiles files).read depth path ds st out st')
    (hds : ds = urls.map fun url => ⟨url, isScoped⟩)
    (hdeep : ∀ u, out ≠ .error (.tooDeep u)) :
    ∃ fetched kept, st.Goes isScoped st' fetched kept ∧ fetched.Nodup ∧
      (∀ v ∈ fetched, ¬ st.cache.Holds isScoped v ∧ v ∉ path) ∧
      Outcome files isScoped path urls st'.cache fetched kept out := by
  induction h generalizing urls with
  | nil => exact ⟨[], [], .refl isScoped _, List.nodup_nil, by simp, List.Perm.refl _⟩
  | deep => exact absurd rfl (hdeep _)
  | @cached depth path d ds st st' styles out hfind hrest ih =>
    obtain ⟨url, rest, rfl, rfl, rfl⟩ := List.map_eq_cons_iff.mp hds.symm
    obtain ⟨fetched, kept, hgoes, hnodup, hnew, houtcome⟩ :=
      ih rfl fun u hu => hdeep u (by rw [hu]; rfl)
    refine ⟨fetched, kept, hgoes, hnodup, hnew, ?_⟩
    cases out with
    | ok others => exact houtcome
    | error e =>
      obtain ⟨importers, u, hstops⟩ := houtcome
      exact ⟨importers, u, hstops.skip url⟩
  | @cyclic depth path d ds st hfind hpath =>
    obtain ⟨url, rest, rfl, rfl, rfl⟩ := List.map_eq_cons_iff.mp hds.symm
    refine ⟨[], [], .refl isScoped _, List.nodup_nil, by simp, [], url, ?_⟩
    exact ⟨List.isChain_singleton _, by simp, by simp, .inr ⟨rfl, by simpa using hpath⟩,
      List.Perm.refl _, by simpa using Cache.not_holds_iff.mpr hfind⟩
  | @failed depth path d ds st cause hfind hpath hread =>
    obtain ⟨url, rest, rfl, rfl, rfl⟩ := List.map_eq_cons_iff.mp hds.symm
    have hnew := Cache.not_holds_iff.mpr hfind
    refine ⟨[url], [], .fetch isScoped st url, List.nodup_singleton _, ?_, [], url, ?_⟩
    · simpa using ⟨hnew, hpath⟩
    · exact ⟨List.isChain_singleton _, by simp, by simp,
        .inl ⟨rfl, Source.read_ofFiles_eq_error.mp hread, by simp⟩, by simp, by simpa using hnew⟩
  | @stopped depth path d ds st st' css e hfind hpath hread himports ih =>
    obtain ⟨url, rest, rfl, rfl, rfl⟩ := List.map_eq_cons_iff.mp hds.symm
    have hfile := Source.read_ofFiles_eq_ok.mp hread
    obtain ⟨fetched, kept, hgoes, hnodup, hnew, importers, u, hstops⟩ := ih rfl hdeep
    have hgoes' := (Store.Goes.fetch isScoped st url).trans hgoes
    have hurl : url ∉ fetched := fun hmem => (hnew url hmem).2 (by simp)
    have hnew' := Cache.not_holds_iff.mpr (himports.find?_key_eq_none hfind)
    refine ⟨url :: fetched, kept, hgoes', List.nodup_cons.mpr ⟨hurl, hnodup⟩, ?_, url :: importers,
      u, hstops.importer hfile hurl hnew'⟩
    intro v hv
    rcases List.mem_cons.mp hv with rfl | hv
    · exact ⟨Cache.not_holds_iff.mpr hfind, hpath⟩
    · exact ⟨(hnew v hv).1, fun hmem => (hnew v hv).2 (List.mem_append_left _ hmem)⟩
  | @loaded depth path d ds st st₁ st' css imported out hfind hpath hread himports hrest ihimports
      ihrest =>
    obtain ⟨url, rest, rfl, rfl, rfl⟩ := List.map_eq_cons_iff.mp hds.symm
    obtain ⟨fetched, kept, hgoes, hnodup, hnew, hperm⟩ := ihimports rfl nofun
    obtain ⟨fetched', kept', hgoes', hnodup', hnew', houtcome⟩ :=
      ihrest rfl fun u hu => hdeep u (by rw [hu]; rfl)
    have hvisit := hgoes.visit (Cache.not_holds_iff.mpr (himports.find?_key_eq_none hfind))
      ((Compiled.ofStylesheet s isScoped url css).styles ++ imported)
    have hkept : (kept ++ [url]).Perm (url :: fetched) :=
      (List.perm_append_singleton url kept).trans (hperm.cons url)
    have hurl : url ∉ fetched := fun hmem => (hnew url hmem).2 (by simp)
    have hapart : ∀ v ∈ fetched', v ∉ url :: fetched := fun v hv hmem =>
      (hnew' v hv).1 (hvisit.holds_iff.mpr (.inr (hkept.mem_iff.mpr hmem)))
    refine ⟨url :: fetched ++ fetched', kept ++ [url] ++ kept', hvisit.trans hgoes', ?_, ?_, ?_⟩
    · exact List.nodup_append.mpr ⟨List.nodup_cons.mpr ⟨hurl, hnodup⟩, hnodup',
        fun v hv w hw heq => hapart w hw (heq ▸ hv)⟩
    · intro v hv
      rcases List.mem_append.mp hv with hv | hv
      · rcases List.mem_cons.mp hv with rfl | hv
        · exact ⟨Cache.not_holds_iff.mpr hfind, hpath⟩
        · exact ⟨(hnew v hv).1, fun hmem => (hnew v hv).2 (List.mem_append_left _ hmem)⟩
      · exact ⟨mt (fun hold => hvisit.holds_iff.mpr (.inl hold)) (hnew' v hv).1, (hnew' v hv).2⟩
    · cases out with
      | ok others => exact hkept.append houtcome
      | error e =>
        obtain ⟨importers, u, hstops⟩ := houtcome
        refine ⟨importers, u, (hstops.skip url).behind hkept fun v hv => ?_⟩
        refine hgoes'.holds_iff.mpr (.inl ?_)
        exact hvisit.holds_iff.mpr (.inr (hkept.mem_iff.mpr hv))

/-! ## What it takes for a load to succeed -/

/-- The stylesheet and all that it imports, directly or not, are there, without a cycle, as far as
they are not known. -/
def IsLoadableBeyond (files : List (Text × Text)) (known : Text → Prop) (url : Text) : Prop :=
  ¬ known url → ∀ v, ReflTransGen (Leads files known) url v →
    (∃ css, files.lookup v = some css) ∧ ¬ TransGen (Leads files known) v v

/-- The more is known, the less can go wrong. -/
theorem IsLoadableBeyond.mono {known known' : Text → Prop} {url : Text}
    (h : IsLoadableBeyond files known url) (hle : ∀ v, known v → known' v) :
    IsLoadableBeyond files known' url := by
  have hleads : ∀ u v, Leads files known' u v → Leads files known u v := fun u v hleads =>
    ⟨hleads.1, mt (hle v) hleads.2⟩
  intro hnew v hreach
  obtain ⟨hfile, hcycle⟩ := h (mt (hle url) hnew) v (ReflTransGen.mono hleads _ _ hreach)
  exact ⟨hfile, fun h => hcycle (TransGen.mono hleads _ _ h)⟩

/-- Without a limit that is met, loading is the search. -/
theorem Loader.load_visits (s : Scope) (files : List (Text × Text)) (isScoped : Bool) {url : Text}
    (hurl : Url.isResolvable url) (st : Store) :
    let loaded := Loader.load ⟨s, .ofFiles files⟩ url isScoped st
    ∃ fetched kept, st.Goes isScoped loaded.2 fetched kept ∧ fetched.Nodup ∧
      (∀ v ∈ fetched, ¬ st.cache.Holds isScoped v) ∧
      Outcome files isScoped [] [url] loaded.2.cache fetched kept loaded.1 := by
  intro loaded
  have hloads := loads_load ⟨s, .ofFiles files⟩ hurl isScoped st
  have hdeep : ∀ u, loaded.1 ≠ .error (.tooDeep u) := fun u hdeep =>
    Loader.load_explained (Nat.lt_succ_self files.length) hurl hdeep
  have hone : [⟨url, isScoped⟩] = [url].map fun url => (⟨url, isScoped⟩ : Dependency) := rfl
  obtain ⟨fetched, kept, hgoes, hnodup, hnew, houtcome⟩ := hloads.visits hone hdeep
  exact ⟨fetched, kept, hgoes, hnodup, fun v hv => (hnew v hv).1, houtcome⟩

/-- A load that succeeds unfolds the tree of imports. -/
theorem Loader.load_unfolds {url : Text} (hurl : Url.isResolvable url) (st : Store)
    {styles : List Text}
    (hok : (Loader.load ⟨s, .ofFiles files⟩ url isScoped st).1 = .ok styles) :
    ∃ pre post, Unfolds files (st.cache.Holds isScoped) [url] pre post ∧
      st.Goes isScoped (Loader.load ⟨s, .ofFiles files⟩ url isScoped st).2 pre.eraseDups
        post.eraseDups := by
  have hloads := loads_load ⟨s, .ofFiles files⟩ hurl isScoped st
  have hone : [⟨url, isScoped⟩] = [url].map fun url => (⟨url, isScoped⟩ : Dependency) := rfl
  have hnothing : ∀ v, st.cache.Holds isScoped v ↔ st.cache.Holds isScoped v ∨ v ∈ [] := by simp
  obtain ⟨pre, post, hunfolds, hgoes⟩ := hloads.unfolds hone hok hnothing nofun
  rw [fresh_nil_left, fresh_nil_left] at hgoes
  exact ⟨pre, post, hunfolds, hgoes⟩

namespace Stops

variable {url u : Text} {path fetched kept importers : List Text} {cache : Cache}
  {e : LoadError Unit}

/-- The path on which a load stops begins with what is to be loaded. -/
theorem head?_eq (h : Stops files isScoped path [url] cache fetched kept importers u e) :
    (importers ++ [u]).head? = some url := by
  cases hhead : (importers ++ [u]).head? with
  | none => simp at hhead
  | some v => rw [List.mem_singleton.mp (h.head_mem v hhead)]

/-- The path on which a load stops goes wrong in a way in which no loadable stylesheet does. -/
theorem not_isLoadableBeyond {known : Text → Prop}
    (h : Stops files isScoped [] [url] cache fetched kept importers u e)
    (hnew : ∀ v ∈ importers ++ [u], ¬ known v) : ¬ IsLoadableBeyond files known url := by
  intro hloadable
  have hchain : (importers ++ [u]).IsChain (Leads files known) :=
    h.chain.imp_of_mem_imp fun v w _ hw hedge => ⟨hedge, hnew w hw⟩
  have hreach : ∀ v ∈ importers ++ [u], ReflTransGen (Leads files known) url v := by
    refine hchain.induction _ _ (fun v w hedge hv => hv.tail hedge) fun hne => ?_
    rw [List.mem_singleton.mp (h.head_mem _ (List.head_mem_head? hne))]
  have hurl := hnew url (List.mem_of_mem_head? h.head?_eq)
  obtain ⟨⟨css, hfile⟩, hcycle⟩ := hloadable hurl u (hreach u (by simp))
  rcases h.cause with ⟨-, hmissing, -⟩ | ⟨-, hu⟩
  · rw [hmissing] at hfile
    cases hfile
  · rw [List.nil_append] at hu
    obtain ⟨before, between, rfl⟩ := List.append_of_mem hu
    rw [List.append_assoc] at hchain
    obtain ⟨hfirst, hback⟩ := List.isChain_cons.mp hchain.right_of_append
    have hcircle : ∀ v ∈ between ++ [u], TransGen (Leads files known) u v :=
      hback.induction _ _ (fun v w hedge hv => hv.tail hedge) fun hne =>
        .single (hfirst _ (List.head_mem_head? hne))
    exact hcycle (hcircle u (by simp))

end Stops

/-- A load succeeds exactly if all that it has to go into is there, without a cycle. -/
theorem Loader.load_ok_iff_isLoadableBeyond {url : Text} (hurl : Url.isResolvable url)
    (st : Store) :
    (∃ styles, (Loader.load ⟨s, .ofFiles files⟩ url isScoped st).1 = .ok styles) ↔
      IsLoadableBeyond files (st.cache.Holds isScoped) url := by
  constructor
  · rintro ⟨styles, hok⟩ hnew v hreach
    obtain ⟨pre, post, hunfolds, -⟩ := Loader.load_unfolds hurl st hok
    have hv := hunfolds.mem_pre_iff.mpr ⟨hnew, hreach⟩
    obtain ⟨-, css, -, -, hfile, -⟩ := hunfolds.of_mem hv
    exact ⟨⟨css, hfile⟩, not_transGen_of_acc (hunfolds.acc v hv)⟩
  · intro hloadable
    obtain ⟨fetched, kept, hgoes, -, -, houtcome⟩ :=
      load_visits s files isScoped hurl st
    cases hout : (Loader.load ⟨s, .ofFiles files⟩ url isScoped st).1 with
    | ok styles => exact ⟨styles, rfl⟩
    | error e =>
      rw [hout] at houtcome
      obtain ⟨importers, u, hstops⟩ := houtcome
      refine absurd hloadable (hstops.not_isLoadableBeyond fun v hv hold => ?_)
      exact hstops.not_holds v hv (hgoes.holds_iff.mpr (.inl hold))

end Search

/-! ## Sessions -/

namespace Session

/-- A load step succeeds exactly if what it has to go into is there. -/
theorem step_load_ok_iff (s : Scope) (session : Session) {url : Text}
    (hurl : Url.isResolvable url) (isScoped : Bool) :
    (∃ styles, (session.step s (.load url isScoped)).1.result = .ok styles) ↔
      IsLoadableBeyond session.files (session.cache.Holds isScoped) url := by
  rw [← Loader.load_ok_iff_isLoadableBeyond (s := s) hurl { cache := session.cache }]
  constructor
  · rintro ⟨styles, hok⟩
    obtain ⟨styles, hok, -⟩ := exists_of_map_eq_ok hok
    exact ⟨styles, hok⟩
  · rintro ⟨styles, hok⟩
    exact ⟨some styles, congrArg (Except.map some) hok⟩

/-- A load of a url that leads somewhere, whatever has happened before, is one search, depth first.
It asks for no stylesheet twice and for none that is in the cache, and adds to the cache at its end
only. If it succeeds, it has asked for all that can be reached outside of the cache, in the order in
which the stylesheets are met first before their imports, and has kept them in the order in which
they are met first behind them. If it fails, it has kept all it has asked for except those on the
path of imports that ends where it failed; and if all that is wrong is that the last of them is
missing, the same load succeeds when that file has been added. -/
theorem step_load_search (s : Scope) (session : Session) {url : Text}
    (hurl : Url.isResolvable url) (isScoped : Bool) :
    let load := Step.load url isScoped
    let after := session.step s load
    let fetched := after.1.fetched
    let known := session.cache.Holds isScoped
    fetched.Nodup ∧ (∀ v ∈ fetched, ¬ known v) ∧
      session.cache.entries <+: after.2.cache.entries ∧
      ∃ kept, after.2.cache.keys =
          session.cache.keys ++ kept.map (fun v => Dependency.key ⟨v, isScoped⟩) ∧
        (∀ styles, after.1.result = .ok styles →
          (∀ v, v ∈ fetched ↔ ¬ known url ∧ ReflTransGen (Leads session.files known) url v) ∧
          ∃ pre post, Unfolds session.files known [url] pre post ∧
            fetched = pre.eraseDups ∧ kept = post.eraseDups) ∧
        (∀ e, after.1.result = .error e →
          ∃ importers u, (importers ++ [u]).head? = some url ∧
            (importers ++ [u]).IsChain (Imports session.files) ∧ importers ⊆ fetched ∧
            (e = .failed u () ∧ session.files.lookup u = none ∧ u ∈ fetched ∨
              e = .cyclic u ∧ u ∈ importers) ∧
            kept.Perm (fetched.filter (· ∉ importers ++ [u])) ∧
            (∀ v ∈ importers ++ [u], ¬ after.2.cache.Holds isScoped v) ∧
            ∀ css, (∃ styles, ((session.step s (.put u css)).2.step s load).1.result = .ok styles) →
              ∃ styles, ((after.2.step s (.put u css)).2.step s load).1.result = .ok styles) := by
  intro load after fetched known
  obtain ⟨fetched', kept, hgoes, hnodup, hnew, houtcome⟩ :=
    Loader.load_visits s session.files isScoped hurl { cache := session.cache }
  have hfetched : fetched = fetched' := hgoes.fetched_eq
  rw [← hfetched] at hnodup hnew houtcome
  refine ⟨hnodup, hnew, hgoes.entries_isPrefix, ?_⟩
  cases hout : (Loader.load ⟨s, .ofFiles session.files⟩ url isScoped
      { cache := session.cache }).1 with
  | ok styles =>
    obtain ⟨pre, post, hunfolds, hgoes⟩ := Loader.load_unfolds hurl _ hout
    have hpre : fetched = pre.eraseDups := hgoes.fetched_eq
    refine ⟨post.eraseDups, hgoes.keys_eq, fun _ _ => ⟨fun v => ?_, pre, post, hunfolds, hpre, rfl⟩,
      ?_⟩
    · rw [hpre, List.mem_eraseDups]
      exact hunfolds.mem_pre_iff
    · intro e he
      have hresult : after.1.result = .ok (some styles) := congrArg (Except.map some) hout
      rw [hresult] at he
      cases he
  | error e =>
    have hresult : after.1.result = .error e := congrArg (Except.map some) hout
    rw [hout] at houtcome
    obtain ⟨importers, u, hstops⟩ := houtcome
    refine ⟨kept, hgoes.keys_eq, fun styles hok => ?_, fun e' he => ?_⟩
    · rw [hresult] at hok
      cases hok
    · obtain rfl : e = e' := Except.error.inj (hresult.symm.trans he)
      refine ⟨importers, u, hstops.head?_eq, hstops.chain, hstops.importers_subset, hstops.cause,
        hstops.perm, hstops.not_holds, fun css hok => ?_⟩
      rw [step_load_ok_iff s _ hurl] at hok ⊢
      exact hok.mono fun v hold => hgoes.holds_iff.mpr (.inl hold)

/-- The third of three stylesheets is missing. Only the second one is kept, and the load succeeds
when the third one has been added. -/
theorem step_load_search_missing :
    let s := Component.templateScope .strict
    let session : Session :=
      { files := [("a.css".toList, "@import 'b.css';@import 'c.css';".toList),
          ("b.css".toList, "x".toList)] }
    let load := Step.load "a.css".toList false
    let after := session.step s load
    after.1.fetched = ["a.css".toList, "b.css".toList, "c.css".toList] ∧
      after.1.fetched.Nodup ∧ after.2.cache.keys = ["b.css".toList] ∧
      ∃ styles,
        ((after.2.step s (.put "c.css".toList "y".toList)).2.step s load).1.result =
          .ok styles := by
  intro s session load after
  obtain ⟨hnodup, -, -, kept, -, -, hfails⟩ :=
    step_load_search s session (by decide : Url.isResolvable "a.css".toList) false
  have hresult : after.1.result = .error (.failed "c.css".toList ()) := by decide +kernel
  obtain ⟨importers, u, -, -, -, hcause, -, -, hrepeat⟩ := hfails _ hresult
  have hmissing : u = "c.css".toList := by
    rcases hcause with ⟨he, -, -⟩ | ⟨he, -⟩
    · cases he
      rfl
    · cases he
  refine ⟨by decide +kernel, hnodup, by decide +kernel, ?_⟩
  rw [← hmissing]
  refine hrepeat _ ?_
  rw [hmissing]
  exact ⟨some [[], "x".toList, "y".toList], by decide +kernel⟩

end Session

end ScopedStyles
