import ScopedStyles.Proofs.Loading.Transparent

/-!
# Loading and resolving

There are two ways to flatten a stylesheet. To load it is to look into the cache first and to ask
for its text; to resolve it is to begin with the text, without a look at the cache for the
stylesheet itself. A cycle through the stylesheet is met at the stylesheet by the one, and by the
other at an import, or not at all if the cache has what is behind it. Both answer what loading
without a cache does (`Session.IsComplete.step_resolveStylesheet`), so they answer the same
(`Session.result_resolveStylesheet`).
-/

namespace ScopedStyles

open Text

variable {s : Scope} {isScoped : Bool} {files : List (Text × Text)} {url css : Text}

/-- With a complete cache a stylesheet that is among the files is resolved directly, and what that
adds to the cache is complete. -/
theorem Loader.resolve_eq_direct (hfile : files.lookup url = some css) (st : Store)
    (hcache : st.cache.IsComplete s isScoped files) :
    let resolved :=
      Loader.resolve ⟨s, .ofFiles files⟩ (.ofStylesheet s isScoped url css) st
    resolved.1 = direct s files [] ⟨url, isScoped⟩ ∧
      resolved.2.cache.IsComplete s isScoped files := by
  intro resolved
  obtain ⟨out, hloads, hresolved⟩ :=
    loads_resolve ⟨s, .ofFiles files⟩ (.ofStylesheet s isScoped url css) st
  -- the stylesheet is on the path from the start, as it is when it is loaded
  have hpath : ImportPath files ([] ++ [url]) (Import.extract url css).urls :=
    (ImportPath.nil files [url]).extend List.not_mem_nil hfile
  obtain ⟨hout, hcache', -⟩ := hloads.transparent _ rfl hpath
    (Nat.lt_succ_of_lt (Nat.lt_succ_self files.length)) hcache
  refine ⟨?_, hcache'⟩
  calc resolved.1
      = out.map ((Compiled.ofStylesheet s isScoped url css).styles ++ ·) := hresolved
    _ = direct s files [] ⟨url, isScoped⟩ := by
      rw [hout, direct_of_some List.not_mem_nil hfile]
      rfl

namespace Session

variable {session : Session}

/-- Resolving a stylesheet that is among the files answers what `direct` does, and the cache stays
complete. -/
theorem IsComplete.step_resolveStylesheet (h : session.IsComplete s isScoped files)
    (hfile : files.lookup url = some css) :
    (session.step s (.resolveStylesheet url css isScoped)).1.result =
        (direct s files [] ⟨url, isScoped⟩).map some ∧
      (session.step s (.resolveStylesheet url css isScoped)).2.IsComplete s isScoped files := by
  obtain ⟨hfiles, hcache⟩ := h
  obtain ⟨hout, hcache'⟩ := Loader.resolve_eq_direct hfile { cache := session.cache } hcache
  rw [step, loading, hfiles]
  exact ⟨congrArg (Except.map some) hout, rfl, hcache'⟩

/-- After any loads in the same form, resolving the compiled text of a stylesheet and loading the
stylesheet have the same result: the same styles, or the same error. -/
theorem result_resolveStylesheet (s : Scope) (isScoped : Bool) (files : List (Text × Text))
    (history : List Text) {url css : Text} (hurl : Url.isResolvable url)
    (hfile : files.lookup url = some css) :
    let session := run s { files } (history.map (.load · isScoped))
    (session.step s (.resolveStylesheet url css isScoped)).1.result =
      (session.step s (.load url isScoped)).1.result := by
  intro session
  have hcomplete := (isComplete_start s isScoped files).run_loads history
  rw [(hcomplete.step_resolveStylesheet hfile).1, (hcomplete.step_load url).1, directLoad,
    if_pos hurl]

/-- A cycle of two, after a load that failed at it and one that did not come to it. -/
theorem result_resolveStylesheet_cyclic :
    let s := Component.templateScope .strict
    let files := [("a.css", "@import 'c.css';@import 'b.css';"), ("b.css", "@import 'a.css';"),
      ("c.css", "c")].map fun file => (file.1.toList, file.2.toList)
    let session := run s { files } (["b.css", "c.css"].map fun u => .load u.toList false)
    let css := "@import 'c.css';@import 'b.css';".toList
    (session.cache.keys = ["c.css".toList] ∧
        (session.step s (.load "a.css".toList false)).1.result =
          .error (.cyclic "a.css".toList)) ∧
      (session.step s (.resolveStylesheet "a.css".toList css false)).1.result =
        (session.step s (.load "a.css".toList false)).1.result := by
  intro s files session css
  refine ⟨by decide +kernel, ?_⟩
  exact result_resolveStylesheet s false files ["b.css".toList, "c.css".toList] (by decide)
    (by decide)

end Session

end ScopedStyles
