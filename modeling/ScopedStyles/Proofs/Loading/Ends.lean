import Mathlib.Data.Set.Finite.Basic
import ScopedStyles.Proofs.Loading.Sources

/-!
# Loading that ends

Cycles are found by comparing urls. So loading ends, without any limit, where only finitely many
urls can be met by following imports (`Loader.load_ends`), and it succeeds only where imports can be
followed finitely far (`Loader.isLoadableFrom_of_load`).
-/

namespace ScopedStyles

open Text Relation

variable {ε : Type} {s : Scope} {read : Text → Except ε Text} {isScoped : Bool} {depth : Nat}
  {path urls : List Text} {ds : List Dependency} {st st' : Store}
  {out : Except (LoadError ε) (List Text)} {url : Text}

/-- The stylesheet at `u` is there and imports the one at `v`. -/
def ImportsFrom (read : Text → Except ε Text) (u v : Text) : Prop :=
  ∃ css, read u = .ok css ∧ v ∈ (Import.extract u css).urls

/-- What a stylesheet depends on, it imports. -/
theorem ImportsFrom.of_mem_dependencies {d i : Dependency} {css : Text}
    (hread : read d.url = .ok css)
    (hi : i ∈ (Compiled.ofStylesheet s d.isScoped d.url css).dependencies) :
    ImportsFrom read d.url i.url := by
  rw [Compiled.dependencies_ofStylesheet] at hi
  obtain ⟨v, hv, rfl⟩ := List.mem_map.mp hi
  exact ⟨css, hread, hv⟩

/-- A load asks for nothing but what is met by following imports. -/
theorem Loads.fetched_of_imports {met : Text → Prop} (h : Loads s read depth path ds st out st')
    (himport : ∀ u v, met u → ImportsFrom read u v → met v) (hds : ∀ d ∈ ds, met d.url) :
    ∀ v ∈ st'.fetched, v ∈ st.fetched ∨ met v := by
  -- what is asked for first, and then for what it imports
  have hasked : ∀ {d : Dependency} {earlier later : List Text}, met d.url →
      (∀ v ∈ later, v ∈ earlier ++ [d.url] ∨ met v) → ∀ v ∈ later, v ∈ earlier ∨ met v := by
    intro d earlier later hd hlater v hv
    rcases hlater v hv with hv | hv
    · rcases List.mem_append.mp hv with hv | hv
      · exact .inl hv
      · exact .inr (List.mem_singleton.mp hv ▸ hd)
    · exact .inr hv
  induction h with
  | nil => exact fun v hv => .inl hv
  | deep => exact fun v hv => .inl hv
  | cached hfind hrest ih => exact ih (List.forall_mem_cons.mp hds).2
  | cyclic hfind hmem => exact fun v hv => .inl hv
  | failed hfind hmem hread => exact hasked (hds _ List.mem_cons_self) fun v hv => .inl hv
  | stopped hfind hmem hread himports ih =>
    have hd := hds _ List.mem_cons_self
    exact hasked hd (ih fun i hi => himport _ _ hd (.of_mem_dependencies hread hi))
  | loaded hfind hmem hread himports hrest ihimports ihrest =>
    obtain ⟨hd, hothers⟩ := List.forall_mem_cons.mp hds
    have hearlier := hasked hd
      (ihimports fun i hi => himport _ _ hd (.of_mem_dependencies hread hi))
    intro v hv
    rcases ihrest hothers v hv with hv | hv
    · exact hearlier v hv
    · exact .inr hv

/-! ## Finitely many urls -/

/-- The error is right about one of the urls: there is nothing, or it is met again. -/
def LoadError.IsAbout (read : Text → Except ε Text) (met : Text → Prop) (e : LoadError ε) : Prop :=
  (∃ u, met u ∧ e = .cyclic u) ∨ ∃ u cause, met u ∧ read u = .error cause ∧ e = .failed u cause

/-- Behind a path of different urls, one of finitely many, the limit is not met. -/
theorem Loads.ends {within : Finset Text} (h : Loads s read depth path ds st out st')
    (hclosed : ∀ u ∈ within, ∀ v, ImportsFrom read u v → v ∈ within)
    (hds : ∀ d ∈ ds, d.url ∈ within) (hpath : path.Nodup) (hsub : ∀ u ∈ path, u ∈ within)
    (hdepth : within.card < depth + path.length) :
    ∀ e, out = .error e → e.IsAbout read (· ∈ within) := by
  -- the path goes on with a url that is not on it
  have hnext : ∀ {d : Dependency} {path : List Text} {css : Text}, d.url ∈ within →
      d.url ∉ path → read d.url = .ok css → path.Nodup → (∀ u ∈ path, u ∈ within) →
      (∀ i ∈ (Compiled.ofStylesheet s d.isScoped d.url css).dependencies, i.url ∈ within) ∧
        (path ++ [d.url]).Nodup ∧ ∀ u ∈ path ++ [d.url], u ∈ within := by
    intro d path css hd hnot hread hpath hsub
    refine ⟨fun i hi => hclosed d.url hd i.url (.of_mem_dependencies hread hi), ?_, fun u hu => ?_⟩
    · exact List.nodup_append.mpr ⟨hpath, List.nodup_singleton _, fun u hu v hv heq =>
        hnot (List.mem_singleton.mp hv ▸ heq ▸ hu)⟩
    · rcases List.mem_append.mp hu with hu | hu
      · exact hsub u hu
      · exact List.mem_singleton.mp hu ▸ hd
  induction h with
  | nil => exact nofun
  | @deep path d ds st =>
    have hle : path.length ≤ within.card := by
      rw [← List.toFinset_card_of_nodup hpath]
      exact Finset.card_le_card fun u hu => hsub u (List.mem_toFinset.mp hu)
    omega
  | cached hfind hrest ih =>
    have herror := ih (List.forall_mem_cons.mp hds).2 hpath hsub hdepth
    exact fun e he => herror e (exists_of_map_eq_error he)
  | cyclic hfind hmem =>
    rintro e ⟨⟩
    exact .inl ⟨_, hds _ List.mem_cons_self, rfl⟩
  | failed hfind hmem hread =>
    rintro e ⟨⟩
    exact .inr ⟨_, _, hds _ List.mem_cons_self, hread, rfl⟩
  | stopped hfind hmem hread himports ih =>
    obtain ⟨himported, hnodup, hmore⟩ :=
      hnext (hds _ List.mem_cons_self) hmem hread hpath hsub
    refine ih himported hnodup hmore ?_
    rw [List.length_append, List.length_singleton]
    omega
  | loaded hfind hmem hread himports hrest ihimports ihrest =>
    have herror := ihrest (List.forall_mem_cons.mp hds).2 hpath hsub hdepth
    exact fun e he => herror e (exists_of_map_eq_error he)

/-! ## Imports that can be followed finitely far -/

/-- The stylesheet is there, and so are its imports, and theirs, until there are no more. -/
inductive IsLoadableFrom (read : Text → Except ε Text) : Text → Prop where
  /-- The stylesheet is loadable if its imports are. -/
  | intro {url css : Text} (hread : read url = .ok css)
      (himports : ∀ v ∈ (Import.extract url css).urls, IsLoadableFrom read v) :
      IsLoadableFrom read url

/-- Where each stylesheet imports another one of the same kind there is no end. -/
theorem IsLoadableFrom.not_of_forall_imports {p : Text → Prop}
    (hnext : ∀ u css, p u → read u = .ok css → ∃ v ∈ (Import.extract u css).urls, p v)
    (h : IsLoadableFrom read url) : ¬ p url := by
  induction h with
  | @intro url css hread himports ih =>
    intro hp
    obtain ⟨v, hv, hpv⟩ := hnext url css hp hread
    exact ih v hv hpv

/-- A load that succeeds has followed all imports to their ends. -/
theorem Loads.isLoadableFrom {styles : List Text} (h : Loads s read depth path ds st out st')
    (hds : ds = urls.map fun url => ⟨url, isScoped⟩) (hout : out = .ok styles)
    (hcache : ∀ v, st.cache.Holds isScoped v → IsLoadableFrom read v) :
    (∀ u ∈ urls, IsLoadableFrom read u) ∧
      ∀ v, st'.cache.Holds isScoped v → IsLoadableFrom read v := by
  induction h generalizing urls styles with
  | nil =>
    obtain rfl := List.map_eq_nil_iff.mp hds.symm
    exact ⟨by simp, hcache⟩
  | deep => cases hout
  | cached hfind hrest ih =>
    obtain ⟨url, rest, rfl, rfl, rfl⟩ := List.map_eq_cons_iff.mp hds.symm
    obtain ⟨others, hothers, -⟩ := exists_of_map_eq_ok hout
    obtain ⟨hrest, hcache'⟩ := ih rfl hothers hcache
    have hurl := hcache url (Cache.holds_iff.mpr ⟨_, hfind⟩)
    exact ⟨List.forall_mem_cons.mpr ⟨hurl, hrest⟩, hcache'⟩
  | cyclic hfind hmem => cases hout
  | failed hfind hmem hread => cases hout
  | stopped hfind hmem hread himports ih => cases hout
  | @loaded depth path d ds st st₁ st' css imported out hfind hmem hread himports hrest ihimports
      ihrest =>
    obtain ⟨url, rest, rfl, rfl, rfl⟩ := List.map_eq_cons_iff.mp hds.symm
    obtain ⟨others, hothers, -⟩ := exists_of_map_eq_ok hout
    obtain ⟨himported, hcache₁⟩ := ihimports rfl rfl hcache
    have hurl : IsLoadableFrom read url := .intro hread himported
    have hnew := Cache.not_holds_iff.mpr (himports.find?_key_eq_none hfind)
    obtain ⟨hrest, hcache'⟩ := ihrest rfl hothers fun v hv =>
      ((Cache.holds_insert hnew _).mp hv).elim (hcache₁ v) fun heq => heq ▸ hurl
    exact ⟨List.forall_mem_cons.mpr ⟨hurl, hrest⟩, hcache'⟩

/-! ## Loads -/

namespace Loader

/-- Where finitely many urls can be met loading ends: it asks for nothing else, an error is right
about one of them, and any higher limit does the same. -/
theorem load_ends (s : Scope) (hfinite : {v | ReflTransGen (ImportsFrom read) url v}.Finite)
    (hurl : Url.isResolvable url) (isScoped : Bool) (st : Store) {depth : Nat}
    (hdepth : hfinite.toFinset.card < depth) :
    let loaded := Loader.load ⟨s, read, depth⟩ url isScoped st
    (∀ v ∈ loaded.2.fetched, v ∈ st.fetched ∨ ReflTransGen (ImportsFrom read) url v) ∧
      (∀ e, loaded.1 = .error e → e.IsAbout read (ReflTransGen (ImportsFrom read) url)) ∧
      ∀ limit, depth ≤ limit → Loader.load ⟨s, read, limit⟩ url isScoped st = loaded := by
  intro loaded
  have hloads := loads_load ⟨s, read, depth⟩ hurl isScoped st
  have hmem : ∀ v, v ∈ hfinite.toFinset ↔ ReflTransGen (ImportsFrom read) url v := fun v =>
    hfinite.mem_toFinset
  have hfetched := hloads.fetched_of_imports
    (fun u v hu hv => (hu.tail hv : ReflTransGen (ImportsFrom read) url v))
    (fun d hd => List.mem_singleton.mp hd ▸ .refl)
  have herror := hloads.ends
    (fun u hu v hv => (hmem v).mpr (((hmem u).mp hu).tail hv))
    (fun d hd => (hmem _).mpr (List.mem_singleton.mp hd ▸ .refl)) List.nodup_nil nofun hdepth
  simp only [hmem] at herror
  refine ⟨hfetched, herror, fun limit hlimit => Loads.load_eq hurl (hloads.mono ?_ hlimit)⟩
  intro u hdeep
  rcases herror _ hdeep with ⟨c, -, he⟩ | ⟨c, cause, -, -, he⟩ <;> cases he

/-- What is loaded with nothing in the cache can be followed to its ends. -/
theorem isLoadableFrom_of_load (hurl : Url.isResolvable url) {styles : List Text}
    (hok : (Loader.load ⟨s, read, depth⟩ url isScoped {}).1 = .ok styles) :
    IsLoadableFrom read url := by
  have hloads := loads_load ⟨s, read, depth⟩ hurl isScoped {}
  have hone : [⟨url, isScoped⟩] = [url].map fun url => (⟨url, isScoped⟩ : Dependency) := rfl
  exact (hloads.isLoadableFrom hone hok fun v hv => by cases hv).1 url List.mem_cons_self

end Loader

end ScopedStyles
