import ScopedStyles.Loading.Basic

/-!
# Sessions

In a session stylesheets are loaded again and again with one cache, while the files they come from
change. The cache does not notice changes: what has been loaded stays as it was.
-/

namespace ScopedStyles

/-- The files of a session and what has been loaded from them. -/
structure Session where
  /-- The files, by url. -/
  files : List (Text × Text) := []
  /-- What has been loaded. -/
  cache : Cache := {}
  deriving DecidableEq, Repr

/-- A step of a session. -/
inductive Session.Step where
  /-- Adds a file, or changes it. -/
  | put (url css : Text)
  /-- Takes a file away. -/
  | remove (url : Text)
  /-- Loads a stylesheet. -/
  | load (url : Text) (isScoped : Bool)
  /-- Compiles a component, and loads what its styles depend on. -/
  | resolveComponent (component : Component)
  /-- Compiles a stylesheet that is not among the files, and loads its imports. -/
  | resolveStylesheet (url css : Text) (isScoped : Bool)
  deriving DecidableEq, Repr

/-- What a step answers. -/
structure Session.Answer where
  /-- The styles, if the step loads any, or the error. -/
  result : Except (LoadError Unit) (Option (List Text))
  /-- The urls that were looked up among the files, in order. -/
  fetched : List Text := []

namespace Session

/-- Files without the one at `url`. -/
def without (files : List (Text × Text)) (url : Text) : List (Text × Text) :=
  files.filter fun file => file.1 ≠ url

/-- Runs a loader on the files and the cache of a session. -/
def loading (s : Scope) (run : Loader Unit → Store → Loaded Unit) (session : Session) :
    Answer × Session :=
  let (result, st) := run { scope := s, source := .ofFiles session.files }
    { cache := session.cache }
  ({ result := result.map some, fetched := st.fetched }, { session with cache := st.cache })

/-- One step of a session. -/
def step (s : Scope) (session : Session) : Step → Answer × Session
  | .put url css =>
    ({ result := .ok none }, { session with files := (url, css) :: without session.files url })
  | .remove url => ({ result := .ok none }, { session with files := without session.files url })
  | .load url isScoped => session.loading s (·.load url isScoped)
  | .resolveComponent component => session.loading s (·.resolve (.ofComponent s component))
  | .resolveStylesheet url css isScoped =>
    session.loading s (·.resolve (.ofStylesheet s isScoped url css))

/-- The session after a list of steps. -/
def run (s : Scope) (session : Session) (steps : List Step) : Session :=
  steps.foldl (fun session step => (session.step s step).2) session

end Session

end ScopedStyles
