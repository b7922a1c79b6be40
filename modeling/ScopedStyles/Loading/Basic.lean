import ScopedStyles.Compiled
import ScopedStyles.Text.Sized

/-!
# Loading

A stylesheet is loaded with everything it imports, and the styles are flattened into one list: its
own, then those of each import in order. `Loader.load` does this depth first. A stylesheet that is
being loaded must not be met again, which would be a cycle of imports. One that has been loaded is
kept in the cache, under its key, and never loaded again.

Imports are followed to the depth that the source allows. A source of finitely many files allows
more than a chain of imports without repetition can have, so that the limit is never met.
-/

namespace ScopedStyles

/-- Where stylesheets come from. -/
structure Source (ε : Type) where
  /-- The text of the stylesheet with the given url, or why there is none. -/
  read : Text → Except ε Text
  /-- How deep imports are followed. -/
  depth : Nat

/-- The source that has the given files, by url. The depth is enough for a chain of imports that
visits every file once and ends with one that is not there. -/
def Source.ofFiles (files : List (Text × Text)) : Source Unit where
  read url :=
    match files.lookup url with
    | some css => .ok css
    | none => .error ()
  depth := files.length + 1

/-- Why a stylesheet was not loaded. -/
inductive LoadError (ε : Type) where
  /-- The source does not have it. -/
  | failed (url : Text) (cause : ε)
  /-- Its url leads nowhere. -/
  | unresolvable (url : Text)
  /-- It imports itself, directly or through other stylesheets. -/
  | cyclic (url : Text)
  /-- It is deeper in the imports than the source allows. -/
  | tooDeep (url : Text)
  deriving DecidableEq, Repr

/-- What a loading error says. -/
def LoadError.message {ε : Type} : LoadError ε → Text
  | failed url _ => "failed to load stylesheet '".toList ++ url ++ ['\'']
  | unresolvable url => "stylesheet url '".toList ++ url ++ "' cannot be resolved".toList
  | cyclic url => "stylesheet '".toList ++ url ++ "' imports itself".toList
  | tooDeep url => "stylesheet '".toList ++ url ++ "' is imported too deep".toList

/-! ## The cache -/

/-- Flattened styles by key, in the order in which the keys came in. -/
structure Cache where
  /-- The keys and their styles. -/
  entries : List (Text × List Text) := []
  deriving DecidableEq, Repr

namespace Cache

/-- The styles under a key. -/
def find? (c : Cache) (key : Text) : Option (List Text) := c.entries.lookup key

/-- The keys, in the order in which they came in. -/
def keys (c : Cache) : List Text := c.entries.map Prod.fst

/-- A cache with styles under a key. A new key comes last. -/
def insert (c : Cache) (key : Text) (styles : List Text) : Cache where
  entries :=
    if key ∈ c.keys then c.entries.map fun e => if e.1 = key then (key, styles) else e
    else c.entries ++ [(key, styles)]

end Cache

/-! ## Loading depth first -/

/-- What loading works on. -/
structure Store where
  /-- What has been loaded. -/
  cache : Cache := {}
  /-- The urls the source has been asked for, in order. -/
  fetched : List Text := []
  deriving DecidableEq, Repr

/-- The result of loading, with what was worked on. -/
abbrev Loaded (ε : Type) := Except (LoadError ε) (List Text) × Store

/-- Loads dependencies one after the other, up to the first that fails, and puts their styles
together. -/
def gather {ε : Type} (load : Dependency → Store → Loaded ε) :
    List Dependency → Store → Loaded ε
  | [], st => (.ok [], st)
  | d :: ds, st =>
    match load d st with
    | (.error e, st) => (.error e, st)
    | (.ok styles, st) =>
      match gather load ds st with
      | (.error e, st) => (.error e, st)
      | (.ok others, st) => (.ok (styles ++ others), st)

/-- Loads stylesheets from a source and scopes them. -/
structure Loader (ε : Type) where
  /-- Where the styles may reach. -/
  scope : Scope
  /-- Where the stylesheets come from. -/
  source : Source ε

namespace Loader

variable {ε : Type}

/-- Loads a dependency of the last stylesheet on `path`, the urls that are being loaded. What is in
the cache is complete, so it is looked at before the path. -/
def dependency (l : Loader ε) :
    (depth : Nat) → (path : List Sized) → Dependency → Store → Loaded ε
  | 0, _, d, st => (.error (.tooDeep d.url), st)
  | depth + 1, path, d, st =>
    match st.cache.find? d.key with
    | some styles => (.ok styles, st)
    | none =>
      if .ofText d.url ∈ path then (.error (.cyclic d.url), st)
      else
        let st := { st with fetched := st.fetched ++ [d.url] }
        match l.source.read d.url with
        | .error cause => (.error (.failed d.url cause), st)
        | .ok css =>
          let compiled := Compiled.ofStylesheet l.scope d.isScoped d.url css
          match gather (l.dependency depth (path ++ [.ofText d.url])) compiled.dependencies st with
          | (.error e, st) => (.error e, st)
          | (.ok imported, st) =>
            let styles := compiled.styles ++ imported
            (.ok styles, { st with cache := st.cache.insert d.key styles })

/-- The styles of the stylesheet at `url` and of everything it imports. -/
def load (l : Loader ε) (url : Text) (isScoped : Bool) (st : Store) : Loaded ε :=
  if Url.isResolvable url then l.dependency l.source.depth [] { url, isScoped } st
  else (.error (.unresolvable url), st)

/-- Compiled styles, with the styles of everything they depend on. -/
def resolve (l : Loader ε) (c : Compiled) (st : Store) : Loaded ε :=
  match gather (l.dependency l.source.depth [.ofText c.url]) c.dependencies st with
  | (.error e, st) => (.error e, st)
  | (.ok imported, st) => (.ok (c.styles ++ imported), st)

end Loader

end ScopedStyles
