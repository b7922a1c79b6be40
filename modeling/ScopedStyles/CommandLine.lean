import ScopedStyles.Options

/-!
# The command line

Arguments are read from left to right. An option that takes a value takes it from behind an equals
sign, or from the next argument, which must not look like an option. No option is given twice, and
there is at least one file. Behind `--` everything is a file.
-/

namespace ScopedStyles.CommandLine

open Text

/-- An option that takes a value. -/
inductive Valued where
  | root
  | scope
  | host
  | componentId
  | suffix
  | outFolder
  | settingsFile
  deriving DecidableEq, Repr

/-- An option without a value. -/
inductive Flag where
  | noScoping
  | loose
  | verbose
  deriving DecidableEq, Repr

/-- What can be asked for instead of a run. -/
inductive Question where
  | version
  | help
  deriving DecidableEq, Repr

/-- What can stand behind a dash. -/
inductive Switch where
  | valued (o : Valued)
  | flag (f : Flag)
  | question (q : Question)
  deriving DecidableEq, Repr

/-- The switches by their long names. -/
def longNames : List (Text × Switch) :=
  [("root".toList, .valued .root), ("scope".toList, .valued .scope),
    ("host".toList, .valued .host), ("component-id".toList, .valued .componentId),
    ("suffix".toList, .valued .suffix), ("out-dir".toList, .valued .outFolder),
    ("config".toList, .valued .settingsFile), ("no-shim".toList, .flag .noScoping),
    ("loose".toList, .flag .loose), ("verbose".toList, .flag .verbose),
    ("version".toList, .question .version), ("help".toList, .question .help)]

/-- The switches by their short names. -/
def shortNames : List (Char × Switch) :=
  [('o', .valued .outFolder), ('c', .valued .settingsFile), ('v', .flag .verbose),
    ('V', .question .version), ('h', .question .help)]

/-- Whether the value of an option is a path, which must not be empty. -/
def Valued.isPath : Valued → Bool
  | root | outFolder | settingsFile => true
  | scope | host | componentId | suffix => false

/-- What a command line asks for. -/
inductive Request where
  /-- A run. -/
  | run (a : Arguments)
  /-- An answer. -/
  | answer (q : Question)
  /-- Nothing that makes sense. -/
  | misuse
  deriving DecidableEq, Repr

/-- What has been read so far. -/
structure State where
  /-- The arguments of the run. -/
  arguments : Arguments := {}
  /-- The switches that were given. -/
  given : List Switch := []
  deriving DecidableEq, Repr

namespace State

/-- The arguments with the value of an option. -/
def setValue (a : Arguments) (value : Text) : Valued → Arguments
  | .root => { a with root := some value }
  | .scope => { a with scope := some value }
  | .host => { a with host := some value }
  | .componentId => { a with componentId := some value }
  | .suffix => { a with suffix := some value }
  | .outFolder => { a with outFolder := some value }
  | .settingsFile => { a with settingsFile := some value }

/-- The arguments with an option that has no value. -/
def setFlag (a : Arguments) : Flag → Arguments
  | .noScoping => { a with noScoping := true }
  | .loose => { a with loose := true }
  | .verbose => a

/-- An option with its value is added, unless it was given before or the value is no path where one
is needed. -/
def addValue? (st : State) (o : Valued) (value : Text) : Option State :=
  if .valued o ∈ st.given ∨ o.isPath ∧ value = [] then none
  else some
    { arguments := setValue st.arguments value o
      given := .valued o :: st.given }

/-- An option without a value is added, unless it was given before. -/
def addFlag? (st : State) (f : Flag) : Option State :=
  if .flag f ∈ st.given then none
  else some
    { arguments := setFlag st.arguments f
      given := .flag f :: st.given }

/-- Files are added. -/
def addFiles (st : State) (files : List Text) : State :=
  { st with arguments := { st.arguments with files := st.arguments.files ++ files } }

/-- What is asked for when everything has been read. -/
def request (st : State) : Request :=
  if st.arguments.files = [] then .misuse else .run st.arguments

end State

/-- What comes of one argument. -/
inductive Progress where
  /-- It has been read. -/
  | done (st : State)
  /-- An option still lacks its value. -/
  | wanting (o : Valued) (st : State)
  /-- It decides what is asked for. -/
  | decided (r : Request)
  deriving DecidableEq, Repr

/-- Progress to the given state, if there is one. -/
def Progress.ofState? : Option State → Progress
  | some st => .done st
  | none => .decided .misuse

/-- A long option behind its dashes, with the value behind an equals sign. -/
def readLong (st : State) (t : Text) : Progress :=
  let (name, value) := match cut .exact ['='] t with
    | some (name, value) => (name, some value)
    | none => (t, none)
  match longNames.lookup name, value with
  | some (.valued o), some value => .ofState? (st.addValue? o value)
  | some (.valued o), none => .wanting o st
  | some (.flag f), none => .ofState? (st.addFlag? f)
  | some (.question q), none => .decided (.answer q)
  | _, _ => .decided .misuse

/-- Short options behind their dash. One that takes a value takes the rest of the argument. -/
def readShort (st : State) : Text → Progress
  | [] => .done st
  | c :: t =>
    match shortNames.lookup c with
    | some (.flag f) =>
      match st.addFlag? f with
      | some st => readShort st t
      | none => .decided .misuse
    | some (.question q) => .decided (.answer q)
    | some (.valued o) =>
      match t with
      | [] => .wanting o st
      | '=' :: value => .ofState? (st.addValue? o value)
      | value => .ofState? (st.addValue? o value)
    | none => .decided .misuse

/-- Whether an argument looks like an option. A single dash does not. -/
def isOption : Text → Bool
  | '-' :: _ :: _ => true
  | _ => false

/-- Reads arguments; `wanting` is the option whose value comes next. -/
def readAll (st : State) (wanting : Option Valued) : List Text → Request
  | [] => if wanting.isSome then .misuse else st.request
  | t :: ts =>
    match wanting with
    | some o =>
      if isOption t then .misuse
      else
        match st.addValue? o t with
        | some st => readAll st none ts
        | none => .misuse
    | none =>
      if t = ['-', '-'] then (st.addFiles ts).request
      else
        let progress := match t with
          | '-' :: '-' :: t => readLong st t
          | '-' :: c :: t => readShort st (c :: t)
          | t => .done (st.addFiles [t])
        match progress with
        | .done st => readAll st none ts
        | .wanting o st => readAll st (some o) ts
        | .decided r => r

/-- Reads a command line. -/
def read (arguments : List Text) : Request := readAll {} none arguments

end ScopedStyles.CommandLine
