import ScopedStyles.Proofs.Loading.Transparent

/-!
# Cycles of imports

Loading ends, and what it answers is right about the graph of imports: it succeeds
exactly if everything that can be reached is there and no cycle can be reached, and an error names
a stylesheet that is missing, or one on a cycle, among those that can be reached.
-/

namespace ScopedStyles

open Text Relation

variable {s : Scope} {isScoped : Bool} {files : List (Text × Text)}

/-! ## Errors -/

/-- The error is right about a stylesheet that is among `urls` or is imported from there. -/
def LoadError.Explained (files : List (Text × Text)) (urls : List Text) : LoadError Unit → Prop
  | .failed u _ =>
    (∃ url ∈ urls, ReflTransGen (Imports files) url u) ∧ files.lookup u = none
  | .cyclic u =>
    (∃ url ∈ urls, ReflTransGen (Imports files) url u) ∧ TransGen (Imports files) u u
  | .unresolvable _ | .tooDeep _ => False

namespace LoadError.Explained

theorem of_reaches {urls urls' : List Text} {e : LoadError Unit} (h : e.Explained files urls)
    (hreach : ∀ v ∈ urls, ∃ u ∈ urls', ReflTransGen (Imports files) u v) :
    e.Explained files urls' := by
  have hlift : ∀ w, (∃ v ∈ urls, ReflTransGen (Imports files) v w) →
      ∃ u ∈ urls', ReflTransGen (Imports files) u w := by
    rintro w ⟨v, hv, hvw⟩
    obtain ⟨u, hu, huv⟩ := hreach v hv
    exact ⟨u, hu, huv.trans hvw⟩
  cases e with
  | failed u cause => exact ⟨hlift u h.1, h.2⟩
  | cyclic u => exact ⟨hlift u h.1, h.2⟩
  | unresolvable u => exact h
  | tooDeep u => exact h

theorem of_subset {urls urls' : List Text} {e : LoadError Unit} (h : e.Explained files urls)
    (hsub : urls ⊆ urls') : e.Explained files urls' :=
  h.of_reaches fun v hv => ⟨v, hsub hv, .refl⟩

/-- What is wrong with the imports of a stylesheet is wrong with the stylesheet. -/
theorem of_imports {urls : List Text} {url css : Text} {e : LoadError Unit}
    (h : e.Explained files (Import.extract url css).urls) (hfile : files.lookup url = some css) :
    e.Explained files (url :: urls) :=
  h.of_reaches fun _ hv => ⟨url, List.mem_cons_self, .single ⟨css, hfile, hv⟩⟩

theorem of_cyclic {url u : Text} (h : Explained files [url] (.cyclic u)) :
    ReflTransGen (Imports files) url u ∧ TransGen (Imports files) u u := by
  obtain ⟨⟨root, hroot, hreach⟩, hcycle⟩ := h
  rw [List.mem_singleton.mp hroot] at hreach
  exact ⟨hreach, hcycle⟩

theorem of_failed {url u : Text} {cause : Unit} (h : Explained files [url] (.failed u cause)) :
    ReflTransGen (Imports files) url u ∧ files.lookup u = none := by
  obtain ⟨⟨root, hroot, hreach⟩, hmissing⟩ := h
  rw [List.mem_singleton.mp hroot] at hreach
  exact ⟨hreach, hmissing⟩

end LoadError.Explained

/-- Behind a path of imports every error is right, whatever is in the cache. -/
theorem Loads.explained {depth : Nat} {path : List Text} {ds : List Dependency}
    {st st' : Store} {out : Except (LoadError Unit) (List Text)} {e : LoadError Unit}
    (urls : List Text) (h : Loads s (Source.ofFiles files).read depth path ds st out st')
    (hds : ds = urls.map fun url => ⟨url, isScoped⟩) (hpath : ImportPath files path urls)
    (hdepth : files.length < depth + path.length) (hout : out = .error e) :
    e.Explained files urls := by
  induction h generalizing urls with
  | nil => cases hout
  | deep =>
    have := hpath.length_le
    omega
  | cached hfind hrest ih =>
    obtain ⟨url, rest, rfl, rfl, rfl⟩ := List.map_eq_cons_iff.mp hds.symm
    have hsub := List.subset_cons_self url rest
    exact (ih _ rfl (hpath.mono hsub) hdepth (exists_of_map_eq_error hout)).of_subset hsub
  | cyclic hfind hmem =>
    obtain ⟨url, rest, rfl, rfl, rfl⟩ := List.map_eq_cons_iff.mp hds.symm
    cases hout
    exact ⟨⟨url, List.mem_cons_self, .refl⟩, hpath.leads url hmem url List.mem_cons_self⟩
  | failed hfind hmem hread =>
    obtain ⟨url, rest, rfl, rfl, rfl⟩ := List.map_eq_cons_iff.mp hds.symm
    cases hout
    exact ⟨⟨url, List.mem_cons_self, .refl⟩, Source.read_ofFiles_eq_error.mp hread⟩
  | stopped hfind hmem hread himports ih =>
    obtain ⟨url, rest, rfl, rfl, rfl⟩ := List.map_eq_cons_iff.mp hds.symm
    have hfile := Source.read_ofFiles_eq_ok.mp hread
    have himport := ih _ rfl (hpath.extend hmem hfile)
      (by rw [List.length_append, List.length_singleton]; omega) hout
    exact himport.of_imports hfile
  | loaded hfind hmem hread himports hrest ihimports ihrest =>
    obtain ⟨url, rest, rfl, rfl, rfl⟩ := List.map_eq_cons_iff.mp hds.symm
    have hsub := List.subset_cons_self url rest
    exact (ihrest _ rfl (hpath.mono hsub) hdepth (exists_of_map_eq_error hout)).of_subset hsub

/-! ## Loads -/

section Load

variable {limit : Nat} {url : Text}

theorem Loader.load_explained (hlimit : files.length < limit) (hurl : Url.isResolvable url)
    {st : Store} {e : LoadError Unit}
    (he : (Loader.load ⟨s, { Source.ofFiles files with depth := limit }⟩ url isScoped st).1 =
      .error e) : e.Explained files [url] := by
  have hloads := loads_load ⟨s, { Source.ofFiles files with depth := limit }⟩ hurl isScoped st
  exact hloads.explained [url] rfl (.nil _ _) hlimit he

/-- The limit of the source is never met, so that any higher one would do as well. -/
theorem Loader.load_eq_of_lt (hlimit : files.length < limit) (hurl : Url.isResolvable url)
    (st : Store) :
    Loader.load ⟨s, { Source.ofFiles files with depth := limit }⟩ url isScoped st =
      Loader.load ⟨s, .ofFiles files⟩ url isScoped st := by
  have hloads := loads_load ⟨s, .ofFiles files⟩ hurl isScoped st
  refine Loads.load_eq hurl (hloads.mono (fun u hdeep => ?_) hlimit)
  exact Loader.load_explained (Nat.lt_succ_self files.length) hurl hdeep

/-- The stylesheet and all that it imports, directly or not, are there, without a cycle. -/
def IsLoadable (files : List (Text × Text)) (url : Text) : Prop :=
  ∀ v, ReflTransGen (Imports files) url v →
    (∃ css, files.lookup v = some css) ∧ ¬ TransGen (Imports files) v v

theorem Complete.isLoadable {styles : List Text} (h : Complete s isScoped files [url] styles) :
    IsLoadable files url := by
  intro v hreach
  obtain ⟨urls, styles', hv, hcomplete⟩ := h.of_reflTransGen List.mem_cons_self hreach
  obtain ⟨css, imported, hfile, -⟩ := hcomplete.exists_imports hv
  exact ⟨⟨css, hfile⟩, hcomplete.not_transGen hv⟩

/-- Nothing can go wrong with a loadable stylesheet. -/
theorem LoadError.Explained.not_isLoadable {e : LoadError Unit} (h : e.Explained files [url]) :
    ¬ IsLoadable files url := by
  intro hloadable
  cases e with
  | failed u cause =>
    obtain ⟨hreach, hmissing⟩ := h.of_failed
    obtain ⟨css, hfile⟩ := (hloadable u hreach).1
    rw [hmissing] at hfile
    cases hfile
  | cyclic u =>
    obtain ⟨hreach, hcycle⟩ := h.of_cyclic
    exact (hloadable u hreach).2 hcycle
  | unresolvable u => exact h
  | tooDeep u => exact h

theorem Loader.load_ok_iff (hurl : Url.isResolvable url) (st : Store)
    (hcache : st.cache.IsComplete s isScoped files) :
    (∃ styles, (Loader.load ⟨s, .ofFiles files⟩ url isScoped st).1 = .ok styles) ↔
      IsLoadable files url := by
  constructor
  · rintro ⟨styles, hok⟩
    have hloads := loads_load ⟨s, .ofFiles files⟩ hurl isScoped st
    obtain ⟨-, -, hcomplete⟩ :=
      hloads.transparent [url] rfl (.nil _ _) (Nat.lt_succ_self _) hcache
    exact (hcomplete styles hok).isLoadable
  · intro hloadable
    cases hout : (Loader.load ⟨s, .ofFiles files⟩ url isScoped st).1 with
    | ok styles => exact ⟨styles, rfl⟩
    | error e =>
      have hwrong := Loader.load_explained (Nat.lt_succ_self files.length) hurl hout
      exact absurd hloadable hwrong.not_isLoadable

end Load

/-! ## Sessions of loads -/

namespace Session

/-- What a load answers after others in the same form. It ends for good: any higher limit would give
the same. It succeeds exactly if the stylesheet is loadable, and names what is wrong if it is not. A
url that leads nowhere is refused before anything is done. -/
theorem load_sound_complete (s : Scope) (isScoped : Bool) (files : List (Text × Text))
    (history : List Text) (url : Text) :
    let session := run s { files } (history.map (.load · isScoped))
    let answer := (session.step s (.load url isScoped)).1
    let after := (session.step s (.load url isScoped)).2
    (Url.isResolvable url →
      (∀ u, answer.result ≠ .error (.tooDeep u)) ∧
      (∀ limit, files.length < limit →
        Loader.load ⟨s, { Source.ofFiles files with depth := limit }⟩ url isScoped
          { cache := session.cache } =
        Loader.load ⟨s, .ofFiles files⟩ url isScoped { cache := session.cache }) ∧
      ((∃ styles, answer.result = .ok (some styles)) ↔
        ∀ v, ReflTransGen (Imports files) url v →
          (∃ css, files.lookup v = some css) ∧ ¬ TransGen (Imports files) v v) ∧
      (∀ u, answer.result = .error (.cyclic u) →
        ReflTransGen (Imports files) url u ∧ TransGen (Imports files) u u) ∧
      (∀ u, answer.result = .error (.failed u ()) →
        ReflTransGen (Imports files) url u ∧ files.lookup u = none)) ∧
    (¬ Url.isResolvable url →
      answer.result = .error (.unresolvable url) ∧ answer.fetched = [] ∧
        after.cache = session.cache) := by
  intro session answer after
  obtain ⟨hfiles, hcache⟩ := (isComplete_start s isScoped files).run_loads history
  have hanswer : answer.result =
      (Loader.load ⟨s, .ofFiles files⟩ url isScoped { cache := session.cache }).1.map some := by
    rw [← hfiles]
    rfl
  constructor
  · intro hurl
    have hexplained : ∀ e, answer.result = .error e → e.Explained files [url] := by
      intro e he
      rw [hanswer] at he
      exact Loader.load_explained (Nat.lt_succ_self files.length) hurl
        (exists_of_map_eq_error he)
    refine ⟨fun u hu => hexplained _ hu, fun limit hlimit => Loader.load_eq_of_lt hlimit hurl _,
      ?_, ?_, ?_⟩
    · rw [hanswer]
      refine Iff.trans ?_ (Loader.load_ok_iff hurl { cache := session.cache } hcache)
      constructor
      · rintro ⟨styles, hok⟩
        obtain ⟨styles', hok', -⟩ := exists_of_map_eq_ok hok
        exact ⟨styles', hok'⟩
      · rintro ⟨styles, hok⟩
        exact ⟨styles, congrArg (Except.map some) hok⟩
    · intro u hu
      exact (hexplained _ hu).of_cyclic
    · intro u hu
      exact (hexplained _ hu).of_failed
  · intro hurl
    have hstep := step_load_of_not_isResolvable s session hurl isScoped
    refine ⟨?_, ?_, ?_⟩
    · exact congrArg (fun r => r.1.result) hstep
    · exact congrArg (fun r => r.1.fetched) hstep
    · exact congrArg (fun r => r.2.cache) hstep

end Session

end ScopedStyles
