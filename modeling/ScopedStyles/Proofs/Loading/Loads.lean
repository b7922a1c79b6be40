import ScopedStyles.Loading.Session

/-!
# Loading as a relation

`Loads` says in one place what loading a list of dependencies can do: one constructor for each way
in which the next of them is dealt with. It is the graph of `gather` (`loads_gather`,
`Loads.gather_eq`), so that what holds of all loading is proved by induction on it.
-/

namespace ScopedStyles

open Text

variable {ε : Type}

/-! ## The cache -/

namespace Cache

theorem find?_eq_none_iff {c : Cache} {key : Text} : c.find? key = none ↔ key ∉ c.keys := by
  rw [find?, List.lookup_eq_none_iff, keys, List.mem_map]
  constructor
  · rintro h ⟨e, he, rfl⟩
    simpa using h e he
  · intro h e he
    exact bne_iff_ne.mpr fun heq => h ⟨e, he, heq.symm⟩

theorem mem_entries_of_find? {c : Cache} {key : Text} {styles : List Text}
    (h : c.find? key = some styles) : (key, styles) ∈ c.entries := by
  obtain ⟨before, after, hentries, -⟩ := List.lookup_eq_some_iff.mp h
  rw [hentries]
  exact List.mem_append_right _ List.mem_cons_self

/-- A key that is not in the cache yet comes last. -/
theorem entries_insert {c : Cache} {key : Text} (h : c.find? key = none) (styles : List Text) :
    (c.insert key styles).entries = c.entries ++ [(key, styles)] := by
  rw [insert, if_neg (find?_eq_none_iff.mp h)]

/-- A new key is found with its styles, and all others as before. -/
theorem find?_insert {c : Cache} {key : Text} (h : c.find? key = none) (styles : List Text)
    (key' : Text) :
    (c.insert key styles).find? key' = if key' = key then some styles else c.find? key' := by
  rw [find?, entries_insert h, List.lookup_append]
  by_cases hkey : key' = key
  · rw [if_pos hkey, hkey, show c.entries.lookup key = none from h]
    simp
  · have hbeq : (key' == key) = false := beq_eq_false_iff_ne.mpr hkey
    rw [if_neg hkey, List.lookup_cons, hbeq]
    exact Option.or_none

end Cache

/-! ## Keys and forms -/

/-- Stylesheets in the same form are told apart by their keys. -/
theorem Dependency.key_injective {isScoped : Bool} {u v : Text}
    (h : Dependency.key ⟨u, isScoped⟩ = Dependency.key ⟨v, isScoped⟩) : u = v := by
  cases isScoped with
  | false => exact h
  | true => exact List.append_cancel_right h

/-- The dependencies of a stylesheet are its imports, in its own form. -/
theorem Compiled.dependencies_ofStylesheet (s : Scope) (isScoped : Bool) (url css : Text) :
    (Compiled.ofStylesheet s isScoped url css).dependencies =
      (Import.extract url css).urls.map fun u => ⟨u, isScoped⟩ := rfl

theorem Compiled.isScoped_of_mem_dependencies {s : Scope} {isScoped : Bool} {url css : Text}
    {d : Dependency} (h : d ∈ (Compiled.ofStylesheet s isScoped url css).dependencies) :
    d.isScoped = isScoped := by
  rw [Compiled.dependencies_ofStylesheet] at h
  obtain ⟨u, -, rfl⟩ := List.mem_map.mp h
  rfl

/-! ## Sources of files -/

theorem Source.read_ofFiles_eq_ok {files : List (Text × Text)} {url css : Text} :
    (Source.ofFiles files).read url = .ok css ↔ files.lookup url = some css := by
  rw [Source.ofFiles]
  simp only
  cases files.lookup url with
  | none => simp
  | some css' => simp

theorem Source.read_ofFiles_eq_error {files : List (Text × Text)} {url : Text} {cause : Unit} :
    (Source.ofFiles files).read url = .error cause ↔ files.lookup url = none := by
  rw [Source.ofFiles]
  simp only
  cases files.lookup url with
  | none => simp
  | some css' => simp

/-! ## Results under a function -/

theorem exists_of_map_eq_ok {α β ε : Type} {f : α → β} {x : Except ε α} {b : β}
    (h : x.map f = .ok b) : ∃ a, x = .ok a ∧ f a = b := by
  cases x with
  | error e => cases h
  | ok a => exact ⟨a, rfl, Except.ok.inj h⟩

theorem exists_of_map_eq_error {α β ε : Type} {f : α → β} {x : Except ε α} {e : ε}
    (h : x.map f = .error e) : x = .error e := by
  cases x with
  | error e' => exact congrArg Except.error (Except.error.inj h)
  | ok a => cases h

/-! ## The relation -/

/-- `Loads s read depth path ds st out st'`: the dependencies `ds` of the last stylesheet on `path`
are loaded in order, which gives `out` and takes `st` to `st'`. -/
inductive Loads (s : Scope) (read : Text → Except ε Text) :
    (depth : Nat) → (path : List Text) → List Dependency → Store →
      Except (LoadError ε) (List Text) → Store → Prop where
  /-- No dependency is left. -/
  | nil {depth : Nat} {path : List Text} {st : Store} :
      Loads s read depth path [] st (.ok []) st
  /-- The limit is met. -/
  | deep {path : List Text} {d : Dependency} {ds : List Dependency} {st : Store} :
      Loads s read 0 path (d :: ds) st (.error (.tooDeep d.url)) st
  /-- The next dependency is in the cache. -/
  | cached {depth : Nat} {path : List Text} {d : Dependency} {ds : List Dependency}
      {st st' : Store} {styles : List Text} {out : Except (LoadError ε) (List Text)}
      (hfind : st.cache.find? d.key = some styles)
      (hrest : Loads s read (depth + 1) path ds st out st') :
      Loads s read (depth + 1) path (d :: ds) st (out.map (styles ++ ·)) st'
  /-- The next dependency is being loaded already. -/
  | cyclic {depth : Nat} {path : List Text} {d : Dependency} {ds : List Dependency} {st : Store}
      (hfind : st.cache.find? d.key = none) (hpath : d.url ∈ path) :
      Loads s read (depth + 1) path (d :: ds) st (.error (.cyclic d.url)) st
  /-- The source does not have the next dependency. -/
  | failed {depth : Nat} {path : List Text} {d : Dependency} {ds : List Dependency} {st : Store}
      {cause : ε} (hfind : st.cache.find? d.key = none) (hpath : d.url ∉ path)
      (hread : read d.url = .error cause) :
      Loads s read (depth + 1) path (d :: ds) st (.error (.failed d.url cause))
        { st with fetched := st.fetched ++ [d.url] }
  /-- An import of the next dependency is not loaded. -/
  | stopped {depth : Nat} {path : List Text} {d : Dependency} {ds : List Dependency}
      {st st' : Store} {css : Text} {e : LoadError ε} (hfind : st.cache.find? d.key = none)
      (hpath : d.url ∉ path) (hread : read d.url = .ok css)
      (himports : Loads s read depth (path ++ [d.url])
        (Compiled.ofStylesheet s d.isScoped d.url css).dependencies
        { st with fetched := st.fetched ++ [d.url] } (.error e) st') :
      Loads s read (depth + 1) path (d :: ds) st (.error e) st'
  /-- The next dependency is loaded with its imports, and kept. -/
  | loaded {depth : Nat} {path : List Text} {d : Dependency} {ds : List Dependency}
      {st st₁ st' : Store} {css : Text} {imported : List Text}
      {out : Except (LoadError ε) (List Text)} (hfind : st.cache.find? d.key = none)
      (hpath : d.url ∉ path) (hread : read d.url = .ok css)
      (himports : Loads s read depth (path ++ [d.url])
        (Compiled.ofStylesheet s d.isScoped d.url css).dependencies
        { st with fetched := st.fetched ++ [d.url] } (.ok imported) st₁)
      (hrest : Loads s read (depth + 1) path ds
        { st₁ with
          cache := st₁.cache.insert d.key
            ((Compiled.ofStylesheet s d.isScoped d.url css).styles ++ imported) } out st') :
      Loads s read (depth + 1) path (d :: ds) st
        (out.map ((Compiled.ofStylesheet s d.isScoped d.url css).styles ++ imported ++ ·)) st'

/-! ## The relation is the graph of loading -/

theorem gather_cons_of_error {load : Dependency → Store → Loaded ε} {d : Dependency}
    {st st' : Store} {e : LoadError ε} (h : load d st = (.error e, st')) (ds : List Dependency) :
    gather load (d :: ds) st = (.error e, st') := by
  rw [gather, h]

theorem gather_cons_of_ok {load : Dependency → Store → Loaded ε} {d : Dependency}
    {ds : List Dependency} {st st₁ st' : Store} {styles : List Text}
    {out : Except (LoadError ε) (List Text)} (h : load d st = (.ok styles, st₁))
    (hrest : gather load ds st₁ = (out, st')) :
    gather load (d :: ds) st = (out.map (styles ++ ·), st') := by
  rw [gather, h]
  simp only
  rw [hrest]
  cases out with
  | error e => rfl
  | ok others => rfl

variable {s : Scope} {read : Text → Except ε Text}

theorem ofText_mem_map {url : Text} {path : List Text} :
    Sized.ofText url ∈ path.map Sized.ofText ↔ url ∈ path := by
  rw [Sized.ofText_mem_iff, List.map_map, show Sized.text ∘ Sized.ofText = id from rfl, List.map_id]

/-- What is loaded according to the relation is what is gathered, whatever the limit of the source
is. -/
theorem Loads.gather_eq {depth : Nat} {path : List Text} {ds : List Dependency} {st st' : Store}
    {out : Except (LoadError ε) (List Text)} (h : Loads s read depth path ds st out st')
    (limit : Nat) :
    gather (Loader.dependency ⟨s, read, limit⟩ depth (path.map .ofText)) ds st = (out, st') := by
  induction h with
  | nil => rfl
  | deep => rfl
  | cached hfind hrest ih =>
    refine gather_cons_of_ok ?_ ih
    rw [Loader.dependency, hfind]
  | cyclic hfind hpath =>
    refine gather_cons_of_error ?_ _
    rw [Loader.dependency, hfind]
    simp only
    rw [if_pos (ofText_mem_map.mpr hpath)]
  | failed hfind hpath hread =>
    refine gather_cons_of_error ?_ _
    rw [Loader.dependency, hfind]
    simp only
    rw [if_neg (mt ofText_mem_map.mp hpath), hread]
  | stopped hfind hpath hread himports ih =>
    refine gather_cons_of_error ?_ _
    rw [List.map_append] at ih
    rw [Loader.dependency, hfind]
    simp only
    rw [if_neg (mt ofText_mem_map.mp hpath), hread]
    simp only
    rw [show [Sized.ofText _] = List.map Sized.ofText [_] from rfl, ih]
  | loaded hfind hpath hread himports hrest ihimports ihrest =>
    refine gather_cons_of_ok ?_ ihrest
    rw [List.map_append] at ihimports
    rw [Loader.dependency, hfind]
    simp only
    rw [if_neg (mt ofText_mem_map.mp hpath), hread]
    simp only
    rw [show [Sized.ofText _] = List.map Sized.ofText [_] from rfl, ihimports]

/-- Loading ends one way or the other. -/
theorem exists_loads (s : Scope) (read : Text → Except ε Text) (depth : Nat) (path : List Text)
    (ds : List Dependency) (st : Store) : ∃ out st', Loads s read depth path ds st out st' := by
  induction depth generalizing path ds st with
  | zero =>
    cases ds with
    | nil => exact ⟨_, _, .nil⟩
    | cons d ds => exact ⟨_, _, .deep⟩
  | succ depth ih =>
    induction ds generalizing st with
    | nil => exact ⟨_, _, .nil⟩
    | cons d ds ihds =>
      cases hfind : st.cache.find? d.key with
      | some styles =>
        obtain ⟨out, st', hrest⟩ := ihds st
        exact ⟨_, _, .cached hfind hrest⟩
      | none =>
        by_cases hpath : d.url ∈ path
        · exact ⟨_, _, .cyclic hfind hpath⟩
        · cases hread : read d.url with
          | error cause => exact ⟨_, _, .failed hfind hpath hread⟩
          | ok css =>
            obtain ⟨out, st₁, himports⟩ := ih (path ++ [d.url])
              (Compiled.ofStylesheet s d.isScoped d.url css).dependencies
              { st with fetched := st.fetched ++ [d.url] }
            cases out with
            | error e => exact ⟨_, _, .stopped hfind hpath hread himports⟩
            | ok imported =>
              obtain ⟨out, st', hrest⟩ := ihds _
              exact ⟨_, _, .loaded hfind hpath hread himports hrest⟩

/-- Loading does what the relation says. -/
theorem loads_gather (s : Scope) (read : Text → Except ε Text) (limit depth : Nat)
    (path : List Text) (ds : List Dependency) (st : Store) :
    Loads s read depth path ds st
      (gather (Loader.dependency ⟨s, read, limit⟩ depth (path.map .ofText)) ds st).1
      (gather (Loader.dependency ⟨s, read, limit⟩ depth (path.map .ofText)) ds st).2 := by
  obtain ⟨out, st', h⟩ := exists_loads s read depth path ds st
  rw [h.gather_eq limit]
  exact h

/-! ## What a load does -/

theorem gather_singleton (load : Dependency → Store → Loaded ε) (d : Dependency) (st : Store) :
    gather load [d] st = load d st := by
  cases h : load d st with
  | mk out st' =>
    cases out with
    | error e => exact gather_cons_of_error h []
    | ok styles =>
      rw [gather_cons_of_ok h rfl]
      exact congrArg (fun t => (Except.ok t, st')) (List.append_nil styles)

/-- A stylesheet is loaded as the only dependency of nothing. -/
theorem Loads.load_eq {l : Loader ε} {url : Text} (hurl : Url.isResolvable url) {isScoped : Bool}
    {st st' : Store} {out : Except (LoadError ε) (List Text)}
    (h : Loads l.scope l.source.read l.source.depth [] [⟨url, isScoped⟩] st out st') :
    l.load url isScoped st = (out, st') := by
  have hgather := h.gather_eq l.source.depth
  rw [gather_singleton] at hgather
  rw [Loader.load, if_pos hurl]
  exact hgather

theorem loads_load (l : Loader ε) {url : Text} (hurl : Url.isResolvable url) (isScoped : Bool)
    (st : Store) :
    Loads l.scope l.source.read l.source.depth [] [⟨url, isScoped⟩] st
      (l.load url isScoped st).1 (l.load url isScoped st).2 := by
  obtain ⟨out, st', h⟩ := exists_loads l.scope l.source.read l.source.depth []
    [⟨url, isScoped⟩] st
  rw [h.load_eq hurl]
  exact h

theorem Loader.load_of_not_isResolvable (l : Loader ε) {url : Text} (hurl : ¬ Url.isResolvable url)
    (isScoped : Bool) (st : Store) :
    l.load url isScoped st = (.error (.unresolvable url), st) := by
  rw [Loader.load, if_neg hurl]

/-- A url that leads nowhere changes nothing. -/
theorem Session.step_load_of_not_isResolvable (s : Scope) (session : Session) {url : Text}
    (hurl : ¬ Url.isResolvable url) (isScoped : Bool) :
    session.step s (.load url isScoped) =
      ({ result := .error (.unresolvable url) }, session) := by
  rw [Session.step, Session.loading, Loader.load_of_not_isResolvable _ hurl]
  rfl

/-- Compiled styles are resolved by loading what they depend on. -/
theorem loads_resolve (l : Loader ε) (c : Compiled) (st : Store) :
    ∃ out, Loads l.scope l.source.read l.source.depth [c.url] c.dependencies st out
        (l.resolve c st).2 ∧ (l.resolve c st).1 = out.map (c.styles ++ ·) := by
  have hloads : Loads l.scope l.source.read l.source.depth [c.url] c.dependencies st
      (gather (l.dependency l.source.depth [.ofText c.url]) c.dependencies st).1
      (gather (l.dependency l.source.depth [.ofText c.url]) c.dependencies st).2 :=
    loads_gather l.scope l.source.read l.source.depth l.source.depth [c.url] c.dependencies st
  rw [Loader.resolve]
  cases hgather : gather (l.dependency l.source.depth [.ofText c.url]) c.dependencies st with
  | mk out st' =>
    rw [hgather] at hloads
    cases out with
    | error e => exact ⟨.error e, hloads, rfl⟩
    | ok imported => exact ⟨.ok imported, hloads, rfl⟩

/-- The urls that the source is asked for are added at the end. -/
theorem Loads.fetched_isPrefix {depth : Nat} {path : List Text} {ds : List Dependency}
    {st st' : Store} {out : Except (LoadError ε) (List Text)}
    (h : Loads s read depth path ds st out st') : st.fetched <+: st'.fetched := by
  induction h with
  | nil => exact List.prefix_refl _
  | deep => exact List.prefix_refl _
  | cached hfind hrest ih => exact ih
  | cyclic hfind hpath => exact List.prefix_refl _
  | failed hfind hpath hread => exact List.prefix_append _ _
  | stopped hfind hpath hread himports ih => exact (List.prefix_append _ _).trans ih
  | loaded hfind hpath hread himports hrest ihimports ihrest =>
    exact ((List.prefix_append _ _).trans ihimports).trans ihrest

/-- Nothing is kept for the stylesheets that are being loaded, as long as all is loaded in their
form. -/
theorem Loads.find?_of_mem_path {depth : Nat} {path : List Text} {ds : List Dependency}
    {st st' : Store} {out : Except (LoadError ε) (List Text)} {isScoped : Bool} {u : Text}
    (h : Loads s read depth path ds st out st') (hds : ∀ d ∈ ds, d.isScoped = isScoped)
    (hu : u ∈ path) :
    st'.cache.find? (Dependency.key ⟨u, isScoped⟩) =
      st.cache.find? (Dependency.key ⟨u, isScoped⟩) := by
  induction h generalizing u with
  | nil => rfl
  | deep => rfl
  | cached hfind hrest ih => exact ih (fun d hd => hds d (List.mem_cons_of_mem _ hd)) hu
  | cyclic hfind hpath => rfl
  | failed hfind hpath hread => rfl
  | @stopped depth path d ds st st' css e hfind hpath hread himports ih =>
    obtain ⟨url, b⟩ := d
    obtain rfl : b = isScoped := hds _ List.mem_cons_self
    exact ih (fun i => Compiled.isScoped_of_mem_dependencies) (List.mem_append_left _ hu)
  | @loaded depth path d ds st st₁ st' css imported out hfind hpath hread himports hrest ihimports
      ihrest =>
    obtain ⟨url, b⟩ := d
    obtain rfl : b = isScoped := hds _ List.mem_cons_self
    have hnested : ∀ v ∈ path ++ [url], st₁.cache.find? (Dependency.key ⟨v, b⟩) =
        st.cache.find? (Dependency.key ⟨v, b⟩) := fun v hv =>
      ihimports (fun i => Compiled.isScoped_of_mem_dependencies) hv
    have hnew : st₁.cache.find? (Dependency.key ⟨url, b⟩) = none :=
      (hnested url (by simp)).trans hfind
    have hkey : Dependency.key ⟨u, b⟩ ≠ Dependency.key ⟨url, b⟩ := fun hkey =>
      hpath (Dependency.key_injective hkey ▸ hu)
    rw [ihrest (fun d hd => hds d (List.mem_cons_of_mem _ hd)) hu, Cache.find?_insert hnew,
      if_neg hkey]
    exact hnested u (List.mem_append_left _ hu)

/-- A stylesheet that was not in the cache is not there either when its imports have been loaded. -/
theorem Loads.find?_key_eq_none {depth : Nat} {path : List Text} {st st' : Store} {css : Text}
    {out : Except (LoadError ε) (List Text)} {d : Dependency}
    (h : Loads s read depth (path ++ [d.url])
      (Compiled.ofStylesheet s d.isScoped d.url css).dependencies
      { st with fetched := st.fetched ++ [d.url] } out st')
    (hfind : st.cache.find? d.key = none) : st'.cache.find? d.key = none :=
  (h.find?_of_mem_path (fun _ => Compiled.isScoped_of_mem_dependencies) (by simp)).trans hfind

/-- A load that does not meet the limit is the same under the next one. -/
theorem Loads.succ {depth : Nat} {path : List Text} {ds : List Dependency}
    {st st' : Store} {out : Except (LoadError ε) (List Text)}
    (h : Loads s read depth path ds st out st') (hout : ∀ url, out ≠ .error (.tooDeep url)) :
    Loads s read (depth + 1) path ds st out st' := by
  induction h with
  | nil => exact .nil
  | deep => exact absurd rfl (hout _)
  | cached hfind hrest ih => exact .cached hfind (ih fun url h => hout url (by rw [h]; rfl))
  | cyclic hfind hpath => exact .cyclic hfind hpath
  | failed hfind hpath hread => exact .failed hfind hpath hread
  | stopped hfind hpath hread himports ih => exact .stopped hfind hpath hread (ih hout)
  | loaded hfind hpath hread himports hrest ihimports ihrest =>
    exact .loaded hfind hpath hread (ihimports nofun)
      (ihrest fun url h => hout url (by rw [h]; rfl))

/-- A load that does not meet the limit is the same under any higher one. -/
theorem Loads.mono {depth depth' : Nat} {path : List Text} {ds : List Dependency}
    {st st' : Store} {out : Except (LoadError ε) (List Text)}
    (h : Loads s read depth path ds st out st') (hout : ∀ url, out ≠ .error (.tooDeep url))
    (hle : depth ≤ depth') : Loads s read depth' path ds st out st' := by
  induction hle with
  | refl => exact h
  | step hle ih => exact ih.succ hout

end ScopedStyles
