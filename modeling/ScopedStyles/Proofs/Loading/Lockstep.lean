import ScopedStyles.Proofs.Loading.Loads

/-!
# Both forms in lockstep

Two runs that load the same stylesheet, one as written and one scoped, do the same step by step: a
store of the first run has exactly one store of the second beside it (`Store.toScoped`), in which
each key has the suffix of scoped stylesheets and each style is scoped. Nothing that a run decides
by depends on more than that.
-/

namespace ScopedStyles

open Text

variable {ε : Type}

/-! ## A store and its scoped store -/

/-- The scoped form of a stylesheet. -/
def Dependency.toScoped (d : Dependency) : Dependency := { d with isScoped := true }

/-- A cache of stylesheets as written, with their scoped forms in their places. -/
def Cache.toScoped (c : Cache) (s : Scope) : Cache where
  entries := c.entries.map fun e => (e.1 ++ scopedSuffix, e.2.map s.encapsulate)

/-- What a run has when its twin that loads stylesheets as written has `st`. -/
def Store.toScoped (st : Store) (s : Scope) : Store := { st with cache := st.cache.toScoped s }

namespace Dependency

theorem key_toScoped {d : Dependency} (hd : d.isScoped = false) :
    d.toScoped.key = d.key ++ scopedSuffix := by
  simp [key, toScoped, hd]

end Dependency

namespace Cache

variable {c : Cache} {s : Scope} {key : Text}

theorem keys_toScoped : (c.toScoped s).keys = c.keys.map (· ++ scopedSuffix) := by
  simp [keys, toScoped]

theorem find?_toScoped :
    (c.toScoped s).find? (key ++ scopedSuffix) = (c.find? key).map (List.map s.encapsulate) := by
  obtain ⟨entries⟩ := c
  simp only [find?, toScoped]
  induction entries with
  | nil => rfl
  | cons e entries ih =>
    obtain ⟨key', styles⟩ := e
    -- the suffix does not make two keys the same, nor keep them from being the same
    have hkey : (key ++ scopedSuffix == key' ++ scopedSuffix) = (key == key') := by
      rw [Bool.eq_iff_iff, beq_iff_eq, beq_iff_eq]
      exact List.append_left_inj scopedSuffix
    rw [List.map_cons, List.lookup_cons, List.lookup_cons, hkey]
    cases key == key' with
    | true => rfl
    | false => exact ih

theorem insert_toScoped (h : c.find? key = none) (styles : List Text) :
    (c.insert key styles).toScoped s =
      (c.toScoped s).insert (key ++ scopedSuffix) (styles.map s.encapsulate) := by
  have h' : (c.toScoped s).find? (key ++ scopedSuffix) = none := by
    rw [find?_toScoped, h]
    rfl
  have hentries : ∀ x y : Cache, x.entries = y.entries → x = y := by
    rintro ⟨x⟩ ⟨y⟩ rfl
    rfl
  apply hentries
  rw [entries_insert h', toScoped, toScoped, entries_insert h]
  simp

end Cache

/-! ## Compiled stylesheets -/

theorem Compiled.styles_ofStylesheet_true (s : Scope) (url css : Text) :
    (ofStylesheet s true url css).styles =
      (ofStylesheet s false url css).styles.map s.encapsulate := rfl

theorem Compiled.dependencies_ofStylesheet_true (s : Scope) (url css : Text) :
    (ofStylesheet s true url css).dependencies =
      (ofStylesheet s false url css).dependencies.map Dependency.toScoped := by
  rw [dependencies_ofStylesheet, dependencies_ofStylesheet, List.map_map]
  rfl

/-! ## One step and a whole run -/

theorem map_append_map (f : Text → Text) (styles : List Text)
    (out : Except (LoadError ε) (List Text)) :
    (out.map (styles ++ ·)).map (List.map f) = (out.map (List.map f)).map (styles.map f ++ ·) := by
  cases out with
  | error e => rfl
  | ok others => exact congrArg Except.ok List.map_append

/-- Whatever a run does with stylesheets as written its twin does with their scoped forms. -/
theorem Loads.toScoped {s : Scope} {read : Text → Except ε Text} {depth : Nat} {path : List Text}
    {ds : List Dependency} {st st' : Store} {out : Except (LoadError ε) (List Text)}
    (h : Loads s read depth path ds st out st') (hds : ∀ d ∈ ds, d.isScoped = false) :
    Loads s read depth path (ds.map Dependency.toScoped) (st.toScoped s)
      (out.map (List.map s.encapsulate)) (st'.toScoped s) := by
  -- where a stylesheet is not kept in one run it is not kept in the other
  have hmissing : ∀ {d : Dependency} {st : Store}, d.isScoped = false →
      st.cache.find? d.key = none → (st.toScoped s).cache.find? d.toScoped.key = none := by
    intro d st hd hfind
    rw [Dependency.key_toScoped hd, Store.toScoped, Cache.find?_toScoped, hfind]
    rfl
  induction h with
  | nil => exact .nil
  | deep => exact .deep
  | @cached depth path d ds st st' styles out hfind hrest ih =>
    rw [List.forall_mem_cons] at hds
    have hkept : (st.toScoped s).cache.find? d.toScoped.key = some (styles.map s.encapsulate) := by
      rw [Dependency.key_toScoped hds.1, Store.toScoped, Cache.find?_toScoped, hfind]
      rfl
    rw [map_append_map]
    exact .cached hkept (ih hds.2)
  | cyclic hfind hpath =>
    rw [List.forall_mem_cons] at hds
    exact .cyclic (hmissing hds.1 hfind) hpath
  | failed hfind hpath hread =>
    rw [List.forall_mem_cons] at hds
    exact .failed (hmissing hds.1 hfind) hpath hread
  | @stopped depth path d ds st st' css e hfind hpath hread himports ih =>
    rw [List.forall_mem_cons] at hds
    rw [hds.1] at ih
    have hnested := ih fun i => Compiled.isScoped_of_mem_dependencies
    rw [← Compiled.dependencies_ofStylesheet_true] at hnested
    exact .stopped (hmissing hds.1 hfind) hpath hread hnested
  | @loaded depth path d ds st st₁ st' css imported out hfind hpath hread himports hrest ihimports
      ihrest =>
    rw [List.forall_mem_cons] at hds
    have hnew := himports.find?_key_eq_none hfind
    rw [hds.1] at ihimports ihrest ⊢
    have hnested := ihimports fun i => Compiled.isScoped_of_mem_dependencies
    rw [← Compiled.dependencies_ofStylesheet_true] at hnested
    have hbehind := ihrest hds.2
    rw [Store.toScoped, Cache.insert_toScoped hnew, List.map_append,
      ← Compiled.styles_ofStylesheet_true, ← Dependency.key_toScoped hds.1] at hbehind
    rw [map_append_map, List.map_append, ← Compiled.styles_ofStylesheet_true]
    exact .loaded (hmissing hds.1 hfind) hpath hread hnested hbehind

namespace Loader

/-- Loaded afresh in both forms, a stylesheet takes the same urls from the source in the same order,
fails in both or in none, and gives the same styles, which are scoped in one of them; and what is
kept is kept under the same keys, with the suffix of scoped stylesheets behind each. -/
theorem load_both_forms (l : Loader ε) (url : Text) :
    (l.load url true {}).2.fetched = (l.load url false {}).2.fetched ∧
      (l.load url true {}).1 = (l.load url false {}).1.map (List.map l.scope.encapsulate) ∧
      (l.load url true {}).2.cache.keys =
        (l.load url false {}).2.cache.keys.map (· ++ scopedSuffix) := by
  have hempty : Store.toScoped {} l.scope = {} := rfl
  have htwin : l.load url true {} =
      ((l.load url false {}).1.map (List.map l.scope.encapsulate),
        (l.load url false {}).2.toScoped l.scope) := by
    by_cases hurl : Url.isResolvable url
    · have hscoped := (loads_load l hurl false {}).toScoped fun d hd => by
        rw [List.mem_singleton.mp hd]
      rw [hempty] at hscoped
      exact hscoped.load_eq hurl
    · rw [l.load_of_not_isResolvable hurl, l.load_of_not_isResolvable hurl, hempty]
      rfl
  rw [htwin]
  exact ⟨rfl, rfl, Cache.keys_toScoped⟩

end Loader

end ScopedStyles
