import ScopedStyles.Proofs.Disk.Visits

/-!
# Urls that stay within

Whether a url can lead to a stylesheet is decided by how it is written. The source is asked for what
it is resolved to, which is not looked at again. That leads to a stylesheet, too, exactly if folding
leaves a segment in front that can begin such a url (`Url.isResolvable_resolve_iff`). If this holds
of all imports that are met, nothing else is asked for (`Loader.isResolvable_of_fetched`).
-/

namespace ScopedStyles

open Text Relation

namespace Url

variable {base path raw url : Text}

/-! ## What begins a url -/

/-- What is behind a slash has no part in a schema. -/
theorem map_fst_schema?_append (first rest : Text) :
    (schema? (first ++ '/' :: rest)).map Prod.fst = (schema? first).map Prod.fst := by
  cases hfirst : schema? first with
  | some found =>
    obtain ⟨rfl, hne, hall⟩ := schema?_eq_some_iff.mp hfirst
    have hwhole : schema? ((found.1 ++ ':' :: found.2) ++ '/' :: rest) =
        some (found.1, found.2 ++ '/' :: rest) :=
      schema?_eq_some_iff.mpr ⟨by simp, hne, hall⟩
    rw [hwhole]
    rfl
  | none =>
    cases hwhole : schema? (first ++ '/' :: rest) with
    | none => rfl
    | some found =>
      obtain ⟨hurl, hne, hall⟩ := schema?_eq_some_iff.mp hwhole
      -- the colon is in front of the slash, as there is no slash in a schema
      rcases List.append_eq_append_iff.mp hurl with ⟨more, hname, hmore⟩ | ⟨more, hname, hmore⟩
      · cases more with
        | nil => cases hmore
        | cons c more =>
          obtain ⟨rfl, -⟩ := List.cons.inj hmore
          exact absurd (hall '/' (hname ▸ by simp)) (by decide)
      · cases more with
        | nil => cases hmore
        | cons c more =>
          obtain ⟨rfl, -⟩ := List.cons.inj hmore
          rw [schema?_eq_some_iff.mpr ⟨hname, hne, hall⟩] at hfirst
          cases hfirst

/-- A url that does not begin at the root is decided by its schema. -/
theorem isResolvable_cons {c : Char} (hc : c ≠ '/') (rest : Text) :
    isResolvable (c :: rest) = ((schema? (c :: rest)).map Prod.fst).all fun name =>
      name == "package".toList || name == "asset".toList := by
  rw [isResolvable.eq_def]
  split
  · contradiction
  · rename_i hroot
    exact absurd (List.cons.inj hroot).1 hc
  · cases schema? (c :: rest) <;> rfl

/-- Whether a url can lead to a stylesheet is decided by its first segment. -/
theorem isResolvable_append (first rest : Text) :
    isResolvable (first ++ '/' :: rest) = isResolvable first := by
  cases first with
  | nil => rfl
  | cons c first =>
    by_cases hc : c = '/'
    · subst hc
      rfl
    · rw [List.cons_append, isResolvable_cons hc, isResolvable_cons hc, ← List.cons_append,
        map_fst_schema?_append]

theorem isResolvable_foldDots (path : Text) :
    isResolvable (foldDots path) =
      (foldSegments (split '/' path)).getLast?.any isResolvable := by
  have hfold : foldDots path = ['/'].intercalate (foldSegments (split '/' path)).reverse := rfl
  rw [hfold, ← List.head?_reverse]
  cases (foldSegments (split '/' path)).reverse with
  | nil => rfl
  | cons first others =>
    cases others with
    | nil => rw [List.intercalate_singleton, List.head?_cons, Option.any_some]
    | cons s others =>
      rw [List.intercalate_cons_cons, List.append_assoc, List.singleton_append,
        isResolvable_append, List.head?_cons, Option.any_some]

/-! ## Resolved urls -/

/-- One of the two has a schema, or what folding leaves in front can begin a url that leads to a
stylesheet: it is not empty, and no other schema comes up with it. -/
def StaysWithin (base url : Text) : Prop :=
  (schema? url).isSome ∨ (schema? base).isSome ∨
    (foldSegments (split '/' (directory base ++ url))).getLast?.any isResolvable

instance (base url : Text) : Decidable (StaysWithin base url) :=
  inferInstanceAs (Decidable (_ ∨ _ ∨ _))

/-- With the schema of a url that leads to a stylesheet any path does. -/
theorem isResolvable_splitSchema_append (h : isResolvable base) (hschema : (schema? base).isSome)
    (path : Text) : isResolvable ((splitSchema base).1 ++ path) := by
  obtain ⟨found, hfound⟩ := Option.isSome_iff_exists.mp hschema
  have hname : (splitSchema base).1 ≠ [] := by
    rw [splitSchema, hfound]
    simp
  have hmem := schema_mem_of_isResolvable h
  simp only [List.mem_cons, List.not_mem_nil, or_false] at hmem
  rcases hmem with hmem | hmem | hmem
  · exact absurd hmem hname
  · rw [hmem]
    rfl
  · rw [hmem]
    rfl

/-- What leads to a stylesheet is resolved to something that does, exactly if it stays within. -/
theorem isResolvable_resolve_iff (hbase : isResolvable base) (hurl : isResolvable url) :
    isResolvable (resolve base url) ↔ StaysWithin base url := by
  rw [StaysWithin]
  cases hschema : schema? url with
  | some found =>
    rw [resolve_of_schema (by rw [hschema]; nofun)]
    simp [hurl]
  | none =>
    have hrelative : IsRelative url := by
      refine ⟨hschema, fun hroot => ?_⟩
      obtain ⟨rest, rfl⟩ := List.isPrefixOf_iff_prefix.mp hroot
      cases hurl
    rw [resolve_of_isRelative hrelative]
    cases hfound : schema? base with
    | some found =>
      have hkept := isResolvable_splitSchema_append hbase (by rw [hfound]; rfl)
        (foldDots (directory (splitSchema base).2 ++ url))
      simp [hkept]
    | none =>
      have hsplit : splitSchema base = ([], base) := by rw [splitSchema, hfound]
      rw [hsplit, List.nil_append, isResolvable_foldDots]
      simp

/-! ## Plain urls -/

theorem IsPlainPath.isResolvable (h : IsPlainPath path) : isResolvable path := by
  cases path with
  | nil => exact absurd List.mem_cons_self h.no_empty
  | cons c rest =>
    have hc : c ≠ '/' := by
      rintro rfl
      exact h.not_isAbsolute rfl
    rw [isResolvable_cons hc, schema?_eq_none h.no_colon]
    rfl

theorem IsPlain.isResolvable (h : IsPlain url) : Url.isResolvable url := by
  have hurl := splitSchema_append url
  have hschema := h.schema
  simp only [List.mem_cons, List.not_mem_nil, or_false] at hschema
  rcases hschema with hschema | hschema | hschema
  · rw [hschema, List.nil_append] at hurl
    exact hurl ▸ h.path.isResolvable
  · rw [← hurl, hschema]
    rfl
  · rw [← hurl, hschema]
    rfl

/-- Plain urls stay within. -/
theorem IsPlain.staysWithin (h : IsPlain base) (hraw : IsPlainPath raw) : StaysWithin base raw :=
  (isResolvable_resolve_iff h.isResolvable hraw.isResolvable).mp (h.resolve hraw).isResolvable

end Url

/-! ## Loading -/

variable {ε : Type} {read : Text → Except ε Text} {base : Text}

/-- All imports that are met from a url on stay within. -/
def ImportsStayWithin (read : Text → Except ε Text) (base : Text) : Prop :=
  ∀ u css, ReflTransGen (ImportsFrom read) base u → read u = .ok css →
    ∀ raw ∈ Import.written css, Url.StaysWithin u raw

theorem Import.isResolvable_of_mem_written {raw css : Text} (h : raw ∈ written css) :
    Url.isResolvable raw := by
  obtain ⟨i, hi, rfl⟩ := List.mem_map.mp h
  exact (List.mem_filter.mp hi).2

/-- What is imported leads to a stylesheet, and its imports stay within as well. -/
theorem ImportsStayWithin.imports {u v : Text} (h : ImportsStayWithin read u)
    (hu : Url.isResolvable u) (himports : ImportsFrom read u v) :
    Url.isResolvable v ∧ ImportsStayWithin read v := by
  refine ⟨?_, fun w css hmet => h w css (.head himports hmet)⟩
  obtain ⟨css, hread, hv⟩ := himports
  rw [Import.urls_extract] at hv
  obtain ⟨raw, hraw, rfl⟩ := List.mem_map.mp hv
  exact (Url.isResolvable_resolve_iff hu (Import.isResolvable_of_mem_written hraw)).mpr
    (h u css .refl hread raw hraw)

/-- All that is met can lead to a stylesheet, exactly if all imports stay within. -/
theorem forall_isResolvable_iff (hbase : Url.isResolvable base) :
    (∀ v, ReflTransGen (ImportsFrom read) base v → Url.isResolvable v) ↔
      ImportsStayWithin read base := by
  constructor
  · intro hall u css hmet hread raw hraw
    have himports : ImportsFrom read u (Url.resolve u raw) :=
      ⟨css, hread, Import.urls_extract u css ▸ List.mem_map_of_mem hraw⟩
    exact (Url.isResolvable_resolve_iff (hall u hmet) (Import.isResolvable_of_mem_written hraw)).mp
      (hall _ (hmet.tail himports))
  · intro hwithin v hmet
    have hboth : Url.isResolvable v ∧ ImportsStayWithin read v := by
      induction hmet with
      | refl => exact ⟨hbase, hwithin⟩
      | tail hmet himports ih => exact ih.2.imports ih.1 himports
    exact hboth.1

/-- Where all imports stay within, nothing is asked for that cannot lead to a stylesheet. -/
theorem Loads.isResolvable_of_mem_fetched {s : Scope} {depth : Nat} {path : List Text}
    {ds : List Dependency} {st st' : Store} {out : Except (LoadError ε) (List Text)}
    (h : Loads s read depth path ds st out st')
    (hds : ∀ d ∈ ds, Url.isResolvable d.url ∧ ImportsStayWithin read d.url) :
    ∀ v ∈ st'.fetched, v ∈ st.fetched ∨ Url.isResolvable v := by
  have hasked : ∀ v ∈ st'.fetched,
      v ∈ st.fetched ∨ (Url.isResolvable v ∧ ImportsStayWithin read v) :=
    h.fetched_of_imports (fun u v hu himports => hu.2.imports hu.1 himports) hds
  exact fun v hv => (hasked v hv).imp_right And.left

namespace Loader

variable (l : Loader ε)

/-- What can lead to a stylesheet is resolved to something that can, exactly if it stays within. If
all imports do, and the style urls of a component, the source is asked for nothing else. -/
theorem isResolvable_of_fetched (hbase : Url.isResolvable base) :
    (∀ url, Url.isResolvable url →
        (Url.isResolvable (Url.resolve base url) ↔ Url.StaysWithin base url)) ∧
      ((∀ v, ReflTransGen (ImportsFrom l.source.read) base v → Url.isResolvable v) ↔
        ImportsStayWithin l.source.read base) ∧
      (ImportsStayWithin l.source.read base → ∀ isScoped st,
        ∀ v ∈ (l.load base isScoped st).2.fetched, v ∈ st.fetched ∨ Url.isResolvable v) ∧
      ∀ (s : Scope) (c : Component) (st : Store), c.moduleUrl = base →
        (∀ url ∈ c.styleUrls, Url.isResolvable url → Url.StaysWithin base url ∧
          ImportsStayWithin l.source.read (Url.resolve base url)) →
        ∀ v ∈ (l.resolve (Compiled.ofComponent s c) st).2.fetched,
          v ∈ st.fetched ∨ Url.isResolvable v := by
  have hresolve : ∀ url, Url.isResolvable url →
      (Url.isResolvable (Url.resolve base url) ↔ Url.StaysWithin base url) :=
    fun url hurl => Url.isResolvable_resolve_iff hbase hurl
  refine ⟨hresolve, forall_isResolvable_iff hbase, fun hwithin isScoped st => ?_, ?_⟩
  · refine (loads_load l hbase isScoped st).isResolvable_of_mem_fetched fun d hd => ?_
    obtain rfl := List.mem_singleton.mp hd
    exact ⟨hbase, hwithin⟩
  · rintro s c st rfl hurls
    obtain ⟨out, hloads, -⟩ := loads_resolve l (Compiled.ofComponent s c) st
    refine hloads.isResolvable_of_mem_fetched fun d hd => ?_
    simp only [Compiled.ofComponent, Compiled.ofStyles, List.mem_map, List.mem_filter] at hd
    obtain ⟨-, ⟨url, ⟨hmem, hurl⟩, rfl⟩, rfl⟩ := hd
    obtain ⟨hstays, hwithin⟩ := hurls url hmem hurl
    exact ⟨(hresolve url hurl).mpr hstays, hwithin⟩

/-- An import from the folder above stays within, and is all that is asked for. -/
theorem isResolvable_of_fetched_above :
    (Loader.load ⟨{ content := "c".toList, host := "h".toList },
      Source.ofFiles [("a/b.css".toList, "@import '../c.css';".toList),
        ("c.css".toList, "c \x7b\x7d".toList)]⟩ "a/b.css".toList true {}).2.fetched.all
      Url.isResolvable := by
  set l : Loader Unit := ⟨{ content := "c".toList, host := "h".toList },
    Source.ofFiles [("a/b.css".toList, "@import '../c.css';".toList),
      ("c.css".toList, "c \x7b\x7d".toList)]⟩
  have hmet : ∀ v, ReflTransGen (ImportsFrom l.source.read) "a/b.css".toList v →
      v = "a/b.css".toList ∨ v = "c.css".toList := by
    intro v hmet
    induction hmet with
    | refl => exact .inl rfl
    | tail hmet himports ih =>
      obtain ⟨css, hread, hv⟩ := himports
      rcases ih with rfl | rfl
      · obtain rfl := Except.ok.inj hread
        have hurls : (Import.extract "a/b.css".toList "@import '../c.css';".toList).urls =
            ["c.css".toList] := by decide +kernel
        rw [hurls] at hv
        exact .inr (List.mem_singleton.mp hv)
      · obtain rfl := Except.ok.inj hread
        have hurls : (Import.extract "c.css".toList "c \x7b\x7d".toList).urls = [] := by
          decide +kernel
        rw [hurls] at hv
        exact absurd hv List.not_mem_nil
  have hall := l.isResolvable_of_fetched (by decide : Url.isResolvable "a/b.css".toList)
  have hwithin : ImportsStayWithin l.source.read "a/b.css".toList := by
    refine hall.2.1.mp fun v hv => ?_
    rcases hmet v hv with rfl | rfl <;> decide
  exact List.all_eq_true.mpr fun v hv =>
    (hall.2.2.1 hwithin true {} v hv).resolve_left List.not_mem_nil

end Loader

/-- A point in front of an empty segment is folded away, which leaves a path from the root. -/
theorem Url.resolve_not_isResolvable :
    ¬ ∀ base url, isResolvable base → isResolvable url → isResolvable (resolve base url) := by
  intro h
  exact absurd (h "a.css".toList ".//b.css".toList (by decide) (by decide)) (by decide)

end ScopedStyles
