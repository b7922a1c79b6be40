import ScopedStyles.Proofs.Loading.Search

/-!
# Loading from other sources and with other caches

A load that succeeds does the same from any source that has the same texts for what it asks for
(`Loads.congr_read`). It succeeds with a cache that holds more, too, if that holds with each
stylesheet all of its imports (`Loads.simulate`): it passes by what is held, and asks for nothing
else than before.
-/

namespace ScopedStyles

open Text

variable {ε ε' : Type} {s : Scope} {read : Text → Except ε Text} {read' : Text → Except ε' Text}
  {isScoped : Bool} {depth : Nat} {path : List Text} {ds : List Dependency} {st st' : Store}
  {out : Except (LoadError ε) (List Text)} {styles : List Text}

/-! ## Other sources -/

/-- A source that has the same texts for what is asked for does as well. -/
theorem Loads.congr_read (h : Loads s read depth path ds st out st') (hout : out = .ok styles)
    (hread : ∀ v ∈ st'.fetched, ∀ css, read v = .ok css → read' v = .ok css) :
    Loads s read' depth path ds st (.ok styles) st' := by
  induction h generalizing styles with
  | nil =>
    cases hout
    exact .nil
  | deep => cases hout
  | cached hfind hrest ih =>
    obtain ⟨others, rfl, rfl⟩ := exists_of_map_eq_ok hout
    exact .cached hfind (ih rfl hread)
  | cyclic hfind hpath => cases hout
  | failed hfind hpath hread => cases hout
  | stopped hfind hpath hread himports ih => cases hout
  | loaded hfind hpath hfile himports hrest ihimports ihrest =>
    obtain ⟨others, rfl, rfl⟩ := exists_of_map_eq_ok hout
    have hearlier := hrest.fetched_isPrefix.subset
    have hurl := hearlier (himports.fetched_isPrefix.subset
      (List.mem_append_right _ List.mem_cons_self))
    exact .loaded hfind hpath (hread _ hurl _ hfile)
      (ihimports rfl fun v hv => hread v (hearlier hv)) (ihrest rfl hread)

/-! ## Other caches -/

theorem Cache.holds_iff {c : Cache} {url : Text} :
    c.Holds isScoped url ↔ ∃ styles, c.find? (Dependency.key ⟨url, isScoped⟩) = some styles := by
  rw [← not_iff_not, Cache.not_holds_iff]
  simp [Option.eq_none_iff_forall_ne_some]

theorem Cache.holds_insert {c : Cache} {url v : Text} (h : ¬ c.Holds isScoped url)
    (styles : List Text) :
    (c.insert (Dependency.key ⟨url, isScoped⟩) styles).Holds isScoped v ↔
      c.Holds isScoped v ∨ v = url := by
  have hkeep : Store.Goes isScoped { cache := c } _ [] [url] := .keep h styles
  exact hkeep.holds_iff.trans (or_congr_right List.mem_singleton)

/-- With each stylesheet that it holds, the cache holds the imports. -/
def Cache.IsClosed (c : Cache) (read : Text → Except ε Text) (isScoped : Bool) : Prop :=
  ∀ u css v, c.Holds isScoped u → read u = .ok css → v ∈ (Import.extract u css).urls →
    c.Holds isScoped v

/-- The cache holds a stylesheet and its imports. -/
theorem Cache.IsClosed.insert {c : Cache} {url css : Text} (h : c.IsClosed read isScoped)
    (hnew : ¬ c.Holds isScoped url) (hread : read url = .ok css)
    (himports : ∀ v ∈ (Import.extract url css).urls, c.Holds isScoped v) (styles : List Text) :
    (c.insert (Dependency.key ⟨url, isScoped⟩) styles).IsClosed read isScoped := by
  intro u css' v hu hread' hv
  rw [Cache.holds_insert hnew] at hu ⊢
  rcases hu with hu | rfl
  · exact .inl (h u css' v hu hread' hv)
  · obtain rfl : css = css' := Except.ok.inj (hread.symm.trans hread')
    exact .inl (himports v hv)

/-- What a load adds to a cache is reached from what is loaded. -/
theorem Loads.holds_subset (h : Loads s read depth path ds st out st') {urls : List Text}
    (hds : ds = urls.map fun url => ⟨url, isScoped⟩) {reached : Text → Prop}
    (hreached : ∀ u css v, reached u → read u = .ok css →
      v ∈ (Import.extract u css).urls → reached v)
    (hst : ∀ v, st.cache.Holds isScoped v → reached v) (hurls : ∀ u ∈ urls, reached u) :
    ∀ v, st'.cache.Holds isScoped v → reached v := by
  induction h generalizing urls with
  | nil => exact hst
  | deep => exact hst
  | cached hfind hrest ih =>
    obtain ⟨url, rest, rfl, rfl, rfl⟩ := List.map_eq_cons_iff.mp hds.symm
    exact ih rfl hst (List.forall_mem_cons.mp hurls).2
  | cyclic hfind hpath => exact hst
  | failed hfind hpath hread => exact hst
  | @stopped depth path d ds st st' css e hfind hpath hread himports ih =>
    obtain ⟨url, rest, rfl, rfl, rfl⟩ := List.map_eq_cons_iff.mp hds.symm
    have hurl := (List.forall_mem_cons.mp hurls).1
    exact ih rfl hst fun v hv => hreached url css v hurl hread hv
  | @loaded depth path d ds st st₁ st' css imported out hfind hpath hread himports hrest ihimports
      ihrest =>
    obtain ⟨url, rest, rfl, rfl, rfl⟩ := List.map_eq_cons_iff.mp hds.symm
    obtain ⟨hurl, hothers⟩ := List.forall_mem_cons.mp hurls
    have hst₁ := ihimports rfl hst fun v hv => hreached url css v hurl hread hv
    have hnew := Cache.not_holds_iff.mpr (himports.find?_key_eq_none hfind)
    refine ihrest rfl (fun v hv => ?_) hothers
    rcases (Cache.holds_insert hnew _).mp hv with hv | rfl
    · exact hst₁ v hv
    · exact hurl

/-- What is done with a larger cache `t` in place of a smaller one `st`. -/
structure Follows (read : Text → Except ε Text) (isScoped : Bool) (urls : List Text)
    (st' t t' : Store) : Prop where
  holds : ∀ v, st'.cache.Holds isScoped v → t'.cache.Holds isScoped v
  mono : ∀ v, t.cache.Holds isScoped v → t'.cache.Holds isScoped v
  closed : t'.cache.IsClosed read isScoped
  loaded : ∀ u ∈ urls, t'.cache.Holds isScoped u
  fetched : ∀ v ∈ t'.fetched, v ∈ t.fetched ∨ v ∈ st'.fetched

/-- A load that succeeds does so with a larger cache, and asks for nothing else. -/
theorem Loads.simulate (h : Loads s read depth path ds st out st') {urls : List Text}
    (hds : ds = urls.map fun url => ⟨url, isScoped⟩) (hout : out = .ok styles) (t : Store)
    (hle : ∀ v, st.cache.Holds isScoped v → t.cache.Holds isScoped v)
    (hclosed : t.cache.IsClosed read isScoped) :
    ∃ styles' t', Loads s read depth path ds t (.ok styles') t' ∧
      Follows read isScoped urls st' t t' := by
  induction h generalizing urls styles t with
  | nil =>
    obtain rfl := List.map_eq_nil_iff.mp hds.symm
    exact ⟨[], t, .nil, hle, fun _ hv => hv, hclosed, by simp, fun v hv => .inl hv⟩
  | deep => cases hout
  | cached hfind hrest ih =>
    obtain ⟨url, rest, rfl, rfl, rfl⟩ := List.map_eq_cons_iff.mp hds.symm
    obtain ⟨others, hothers, -⟩ := exists_of_map_eq_ok hout
    have hurl := hle url (Cache.holds_iff.mpr ⟨_, hfind⟩)
    obtain ⟨found, hfound⟩ := Cache.holds_iff.mp hurl
    obtain ⟨styles', t', hloads, hfollows⟩ := ih rfl hothers t hle hclosed
    refine ⟨_, t', .cached hfound hloads, { hfollows with loaded := ?_ }⟩
    exact List.forall_mem_cons.mpr ⟨hfollows.mono url hurl, hfollows.loaded⟩
  | cyclic hfind hpath => cases hout
  | failed hfind hpath hread => cases hout
  | stopped hfind hpath hread himports ih => cases hout
  | @loaded depth path d ds st st₁ st' css imported out hfind hpath hread himports hrest ihimports
      ihrest =>
    obtain ⟨url, rest, rfl, rfl, rfl⟩ := List.map_eq_cons_iff.mp hds.symm
    obtain ⟨others, hothers, -⟩ := exists_of_map_eq_ok hout
    have hadded : ∀ v, (st₁.cache.insert (Dependency.key ⟨url, isScoped⟩)
        ((Compiled.ofStylesheet s isScoped url css).styles ++ imported)).Holds isScoped v ↔
          st₁.cache.Holds isScoped v ∨ v = url := fun v =>
      Cache.holds_insert (Cache.not_holds_iff.mpr (himports.find?_key_eq_none hfind)) _
    by_cases hurl : t.cache.Holds isScoped url
    · -- all that was loaded for it is reached from it, so that it is held, too
      have hle₁ : ∀ v, st₁.cache.Holds isScoped v → t.cache.Holds isScoped v :=
        himports.holds_subset rfl hclosed hle fun v hv => hclosed url css v hurl hread hv
      obtain ⟨found, hfound⟩ := Cache.holds_iff.mp hurl
      obtain ⟨styles', t', hloads, hfollows⟩ := ihrest rfl hothers t
        (fun v hv => ((hadded v).mp hv).elim (hle₁ v) fun heq => heq ▸ hurl) hclosed
      refine ⟨_, t', .cached hfound hloads, { hfollows with loaded := ?_ }⟩
      exact List.forall_mem_cons.mpr ⟨hfollows.mono url hurl, hfollows.loaded⟩
    · have hfind' := Cache.not_holds_iff.mp hurl
      obtain ⟨imported', t₁, hloads₁, hfollows₁⟩ :=
        ihimports rfl rfl { t with fetched := t.fetched ++ [url] } hle hclosed
      have hnew' := Cache.not_holds_iff.mpr (hloads₁.find?_key_eq_none hfind')
      have hclosed₂ := hfollows₁.closed.insert hnew' hread hfollows₁.loaded
        ((Compiled.ofStylesheet s isScoped url css).styles ++ imported')
      have hadded' : ∀ v, (t₁.cache.insert (Dependency.key ⟨url, isScoped⟩)
          ((Compiled.ofStylesheet s isScoped url css).styles ++ imported')).Holds isScoped v ↔
            t₁.cache.Holds isScoped v ∨ v = url := fun v => Cache.holds_insert hnew' _
      obtain ⟨styles', t', hloads, hfollows⟩ := ihrest rfl hothers
        { t₁ with cache := t₁.cache.insert (Dependency.key ⟨url, isScoped⟩) _ }
        (fun v hv => (hadded' v).mpr (((hadded v).mp hv).imp_left (hfollows₁.holds v))) hclosed₂
      refine ⟨_, t', .loaded hfind' hpath hread hloads₁ hloads, ?_⟩
      have hkept : t'.cache.Holds isScoped url :=
        hfollows.mono url ((hadded' url).mpr (.inr rfl))
      have hearlier := hrest.fetched_isPrefix.subset
      refine ⟨hfollows.holds, fun v hv => hfollows.mono v ?_, hfollows.closed,
        List.forall_mem_cons.mpr ⟨hkept, hfollows.loaded⟩, fun v hv => ?_⟩
      · exact (hadded' v).mpr (.inl (hfollows₁.mono v hv))
      · rcases hfollows.fetched v hv with hv | hv
        · rcases hfollows₁.fetched v hv with hv | hv
          · rcases List.mem_append.mp hv with hv | hv
            · exact .inl hv
            · rw [List.mem_singleton.mp hv]
              exact .inr (hearlier (himports.fetched_isPrefix.subset
                (List.mem_append_right _ List.mem_cons_self)))
          · exact .inr (hearlier hv)
        · exact .inr hv

/-! ## Other caches and other sources -/

/-- The texts that there are at urls, as files. -/
def textsAt (read : Text → Except ε Text) (urls : List Text) : List (Text × Text) :=
  urls.filterMap fun url => (read url).toOption.map (url, ·)

theorem lookup_textsAt {urls : List Text} {v css : Text} :
    (textsAt read urls).lookup v = some css ↔ v ∈ urls ∧ read v = .ok css := by
  induction urls with
  | nil => simp [textsAt]
  | cons url urls ih =>
    rw [textsAt] at ih ⊢
    by_cases hv : v = url
    · subst hv
      cases hread : read v <;> simp_all [Except.toOption]
    · have hne : (v == url) = false := beq_eq_false_iff_ne.mpr hv
      cases hread : read url with
      | error e => simpa [hread, hv, Except.toOption] using ih
      | ok css' => simpa [hread, hv, hne, Except.toOption, List.lookup_cons] using ih

/-- What is loaded with nothing in the cache is loaded as well with one that is complete and holds
all imports of what it holds, and the cache stays so. -/
theorem Loads.again {files : List (Text × Text)} {url : Text} {t : Store}
    (h : Loads s (Source.ofFiles files).read depth [] [⟨url, isScoped⟩] {} (.ok styles) st')
    (hcomplete : t.cache.IsComplete s isScoped files)
    (hclosed : t.cache.IsClosed (Source.ofFiles files).read isScoped) :
    ∃ t', Loads s (Source.ofFiles files).read depth [] [⟨url, isScoped⟩] t (.ok styles) t' ∧
      t'.cache.IsComplete s isScoped files ∧
      t'.cache.IsClosed (Source.ofFiles files).read isScoped ∧
      ∀ v ∈ t'.fetched, v ∈ t.fetched ∨ v ∈ st'.fetched := by
  have hone : [⟨url, isScoped⟩] = [url].map fun url => (⟨url, isScoped⟩ : Dependency) := rfl
  obtain ⟨styles', t', hloads, hfollows⟩ :=
    h.simulate hone rfl t (by simp [Cache.Holds, Cache.keys]) hclosed
  -- a higher limit makes no difference, and then both are direct
  have hlimit : files.length < depth + (files.length + 1) + ([] : List Text).length := by
    simp only [List.length_nil]
    omega
  have hle := Nat.le_add_right depth (files.length + 1)
  have hshallow : ∀ u, (.ok styles : Except (LoadError Unit) (List Text)) ≠ .error (.tooDeep u) :=
    fun u he => by cases he
  have hshallow' : ∀ u, (.ok styles' : Except (LoadError Unit) (List Text)) ≠ .error (.tooDeep u) :=
    fun u he => by cases he
  obtain ⟨hdirect, -, -⟩ := (h.mono hshallow hle).transparent [url] rfl (.nil files [url]) hlimit
    (fun _ _ hfind => by cases hfind)
  obtain ⟨hdirect', hcomplete', -⟩ := (hloads.mono hshallow' hle).transparent [url] rfl
    (.nil files [url]) hlimit hcomplete
  obtain rfl := Except.ok.inj (hdirect.trans hdirect'.symm)
  exact ⟨t', hloads, hcomplete', hfollows.closed, hfollows.fetched⟩

end ScopedStyles
