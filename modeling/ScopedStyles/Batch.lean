import ScopedStyles.Disk.Folders
import ScopedStyles.Disk.Source
import ScopedStyles.Glob.Expand
import ScopedStyles.Options

/-!
# Batches

A batch is a run of the program over a list of stylesheets. They are processed one after the other
with one cache, so that an import that several of them share is read once. The first fault ends the
batch; what has been written by then stays.
-/

namespace ScopedStyles

open Text

/-- Why a batch failed. -/
inductive BatchError where
  /-- The file with the settings was not read. -/
  | settingsUnreadable (path : Text) (cause : SystemError)
  /-- The file with the settings has something else in it. -/
  | settingsInvalid (path : Text)
  /-- There is no root folder. -/
  | noRoot (path : Text) (cause : SystemError)
  /-- A pattern is wrong. -/
  | badPattern (pattern : Text) (cause : Glob.PatternError)
  /-- There are no stylesheets. -/
  | noFiles
  /-- A stylesheet is not there. -/
  | cannotOpen (path : Text) (cause : SystemError)
  /-- A stylesheet is not below the root folder. -/
  | outside (path : Text) (root : Place)
  /-- A stylesheet, or something it imports, was not loaded. -/
  | notLoaded (path : Text) (cause : LoadError SystemError)
  /-- The folder for an output file was not created. -/
  | noFolder (path : Text) (cause : SystemError)
  /-- An output file was not written. -/
  | cannotWrite (path : Text) (cause : SystemError)
  deriving DecidableEq, Repr

namespace BatchError

/-- Says what failed. -/
def headline : BatchError → Text
  | settingsUnreadable path _ => "failed to read config file ".toList ++ path
  | settingsInvalid path => "invalid config file ".toList ++ path
  | noRoot path _ => "cannot open root directory ".toList ++ path
  | badPattern pattern _ => "invalid glob pattern '".toList ++ pattern ++ ['\'']
  | noFiles => "no input stylesheets".toList
  | cannotOpen path _ => "cannot open ".toList ++ path
  | outside path root => path ++ " is outside of ".toList ++ root.path
  | notLoaded path _ => "failed to shim ".toList ++ path
  | noFolder path _ => "cannot create directory ".toList ++ path
  | cannotWrite path _ => "cannot write ".toList ++ path

/-- Says why it failed, the nearest cause first. -/
def causes : BatchError → List Text
  | settingsUnreadable _ e | noRoot _ e | cannotOpen _ e | noFolder _ e | cannotWrite _ e =>
    [e.message]
  | badPattern _ e => [e.message]
  | outside _ _ => ["prefix not found".toList]
  | notLoaded _ (.failed url e) => [LoadError.message (.failed url e), e.message]
  | notLoaded _ e => [e.message]
  | settingsInvalid _ | noFiles => []

/-- Says what failed and why. -/
def message (e : BatchError) : Text := ": ".toList.intercalate (e.headline :: e.causes)

/-- The path that led nowhere, if that is what failed. Stylesheets are below the folder `root`. -/
def missing? (root : Text) : BatchError → Option Text
  | settingsUnreadable path .notFound | noRoot path .notFound | cannotOpen path .notFound =>
    some path
  | notLoaded _ (.failed url .notFound) => some (Path.join root (Url.path url))
  | _ => none

end BatchError

namespace Batch

/-! ## Settings -/

/-- The settings in a file. -/
def settings (d : Disk) (path : Text) : Except BatchError Settings :=
  match d.read path with
  | .error e => .error (.settingsUnreadable path e)
  | .ok t =>
    match (Json.parse? t).bind Settings.ofJson? with
    | some s => .ok s
    | none => .error (.settingsInvalid path)

/-- The options that arguments make up, with the settings from the file they name. -/
def options (d : Disk) (a : Arguments) : Except BatchError Options :=
  match a.settingsFile with
  | none => .ok (.ofArguments a {})
  | some path => (settings d path).map (.ofArguments a)

/-! ## Finding the stylesheets -/

/-- Whether a text is a pattern and not a path. -/
def isPattern (t : Text) : Bool := t.any fun c => c == '*' || c == '?' || c == '['

/-- The paths that an argument stands for. A path stands for itself, even if nothing is there; a
pattern stands for the files that match it. -/
def argumentPaths (d : Disk) (t : Text) : Except BatchError (List Text) :=
  if isPattern t then
    match Glob.paths d t with
    | .ok paths => .ok (paths.filter d.hasFile)
    | .error e => .error (.badPattern t e)
  else .ok [t]

/-- Paths with another one behind them, unless it is one of them. -/
def addPath (paths : List Text) (path : Text) : List Text :=
  if paths.any (Path.same path) then paths else paths ++ [path]

/-- The paths that arguments stand for, each of them once. -/
def findPaths (d : Disk) (arguments : List Text) : Except BatchError (List Text) := do
  return ((← arguments.mapM (argumentPaths d)).flatten).foldl addPath []

/-! ## Processing the stylesheets -/

/-- What becomes of a stylesheet. -/
structure Output where
  /-- The url of the stylesheet. -/
  url : Text
  /-- The file that was written, if any. -/
  path : Option Text
  /-- The styles of the stylesheet and of everything it imports. -/
  css : Text
  deriving DecidableEq, Repr

/-- What a batch works on. -/
structure State where
  /-- The disk as it is. -/
  disk : Disk
  /-- The stylesheets that have been loaded. -/
  cache : Cache := {}
  deriving DecidableEq, Repr

/-- What follows a place on the way to another one. -/
def placeFrom? : (root place : Place) → Option Place
  | [], place => some place
  | a :: root, b :: place => if a = b then placeFrom? root place else none
  | _ :: _, [] => none

/-- The url of the stylesheet at a path: how to get there from the root folder. -/
def url (d : Disk) (root : Place) (path : Text) : Except BatchError Text :=
  match d.locate path with
  | .error e => .error (.cannotOpen path e)
  | .ok place =>
    match placeFrom? root place with
    | none => .error (.outside path root)
    | some names => .ok (['/'].intercalate names)

/-- Writes an output file, and creates its folder. -/
def write (d : Disk) (path css : Text) : Except BatchError Disk := do
  let d ← match Path.parent? path with
    | none => .ok d
    | some folder => (d.createFolders folder).mapError (.noFolder folder)
  (d.write path css).mapError (.cannotWrite path)

/-- Processes the stylesheet at a path. -/
def process (o : Options) (root : Place) (path : Text) (st : State) :
    Except BatchError Output × State :=
  match url st.disk root path with
  | .error e => (.error e, st)
  | .ok url =>
    let loader : Loader SystemError :=
      { scope := o.toScope, source := st.disk.stylesheets root.path }
    let (result, store) := loader.load url o.isScoped { cache := st.cache }
    let st := { st with cache := store.cache }
    match result with
    | .error e => (.error (.notLoaded path e), st)
    | .ok styles =>
      let css := ['\n'].intercalate styles
      match o.outFolder with
      | none => (.ok { url, path := none, css }, st)
      | some folder =>
        let path := Path.join folder (Compiled.moduleUrl url o.isScoped o.suffix)
        match write st.disk path css with
        | .error e => (.error e, st)
        | .ok disk => (.ok { url, path := some path, css }, { st with disk })

/-- Processes stylesheets in order, up to the first fault. -/
def processAll (o : Options) (root : Place) :
    List Text → State → Except BatchError (List Output) × State
  | [], st => (.ok [], st)
  | path :: paths, st =>
    match process o root path st with
    | (.error e, st) => (.error e, st)
    | (.ok output, st) =>
      match processAll o root paths st with
      | (.error e, st) => (.error e, st)
      | (.ok outputs, st) => (.ok (output :: outputs), st)

/-- Runs a batch. The root folder is looked at first, then the stylesheets are found. -/
def run (o : Options) (d : Disk) : Except BatchError (List Output) × Disk :=
  match d.locate o.root with
  | .error e => (.error (.noRoot o.root e), d)
  | .ok root =>
    match findPaths d o.files with
    | .error e => (.error e, d)
    | .ok [] => (.error .noFiles, d)
    | .ok paths =>
      let (result, st) := processAll o root paths { disk := d }
      (result, st.disk)

end Batch

end ScopedStyles
