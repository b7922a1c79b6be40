import ScopedStyles.Disk.Path

/-!
# Disks

A disk is a tree of folders and files, seen from a working folder. A place on it is the list of the
names that lead there from the root. A path leads to a place segment by segment, and each segment
needs a folder to start from.

Folders are not listed one by one: wherever something is, there are folders on the way to it.
-/

namespace ScopedStyles

open Text

/-- Why the operating system refuses something. -/
inductive SystemError where
  /-- There is nothing at the place. -/
  | notFound
  /-- Something at the place is in the way. -/
  | alreadyExists
  /-- A folder was needed. -/
  | notAFolder
  /-- A file was needed. -/
  | isAFolder
  /-- A name or a path is longer than the system allows. -/
  | nameTooLong
  /-- A path has a character that cannot be in one. -/
  | nulInPath
  /-- A file is no text. -/
  | notText
  deriving DecidableEq, Repr

/-- What the operating system says. -/
def SystemError.message : SystemError → Text
  | notFound => "No such file or directory (os error 2)".toList
  | alreadyExists => "File exists (os error 17)".toList
  | notAFolder => "Not a directory (os error 20)".toList
  | isAFolder => "Is a directory (os error 21)".toList
  | nameTooLong => "File name too long (os error 36)".toList
  | nulInPath => "file name contained an unexpected NUL byte".toList
  | notText => "stream did not contain valid UTF-8".toList

/-- What a file holds. -/
inductive Content where
  /-- A text. -/
  | text (t : Text)
  /-- Bytes that are no text. -/
  | binary (bytes : List UInt8)
  deriving DecidableEq, Repr

/-- What bytes are as the content of a file: a text if they encode one. -/
def Content.ofBytes (bytes : ByteArray) : Content :=
  match String.fromUTF8? bytes with
  | some t => .text t.toList
  | none => .binary bytes.toList

/-- A place on a disk: the names that lead there from the root. -/
abbrev Place := List Text

/-- The path from the root to a place. -/
def Place.path (place : Place) : Text := '/' :: ['/'].intercalate place

/-- Files and folders, seen from a working folder. -/
structure Disk where
  /-- The working folder. -/
  home : Place := []
  /-- The files, by place. -/
  files : List (Place × Content) := []
  /-- Folders that may have nothing in them. -/
  folders : List Place := []
  /-- The number of bytes from which on a path is too long. -/
  pathLimit : Option Nat := some 4096
  deriving DecidableEq, Repr

namespace Disk

/-! ## Places -/

/-- What the file at a place holds. -/
def content? (d : Disk) (place : Place) : Option Content := d.files.lookup place

/-- Whether there is a file at a place. -/
def isFile (d : Disk) (place : Place) : Bool := (d.content? place).isSome

/-- Every place where a disk has something for sure. -/
def places (d : Disk) : List Place := d.home :: (d.folders ++ d.files.map Prod.fst)

/-- Whether there is a folder at a place: it is the root, or something is at the place or behind it,
and it is no file. -/
def isFolder (d : Disk) (place : Place) : Bool :=
  !d.isFile place && (place.isEmpty || d.places.any fun p => place.isPrefixOf p)

/-- Whether there is anything at a place. -/
def isThere (d : Disk) (place : Place) : Bool := d.isFile place || d.isFolder place

/-- The name behind a place on the way to `p`, if it is on the way. -/
def nextName? : (place p : Place) → Option Text
  | [], name :: _ => some name
  | a :: place, b :: p => if a = b then nextName? place p else none
  | _, [] => none

/-- The names in the folder at a place, in the order of their characters. -/
def names (d : Disk) (place : Place) : List Text :=
  ((d.places.filterMap (nextName? place)).eraseDups).mergeSort precedes

/-! ## Following paths -/

/-- The number of bytes of a text. -/
def byteLength (t : Text) : Nat := (String.ofList t).utf8ByteSize

/-- The longest name a file or folder can have, in bytes. -/
def nameLimit : Nat := 255

/-- The place one segment further, which is not an idle one. -/
def enter (d : Disk) (place : Place) (segment : Text) : Except SystemError Place :=
  if !d.isFolder place then .error .notAFolder
  else if segment = ['.', '.'] then .ok place.dropLast
  else if nameLimit < byteLength segment then .error .nameTooLong
  else if d.isThere (place ++ [segment]) then .ok (place ++ [segment])
  else .error .notFound

/-- Where a path starts. -/
def start (d : Disk) (path : Text) : Place := if Path.isAbsolute path then [] else d.home

/-- Whether the system takes a path at all. -/
def accepts (d : Disk) (path : Text) : Except SystemError Unit :=
  if '\x00' ∈ path then .error .nulInPath
  else if path = [] then .error .notFound
  else if d.pathLimit.any (· ≤ byteLength path) then .error .nameTooLong
  else .ok ()

/-- The place that segments lead to. Idle segments lead nowhere. -/
def follow (d : Disk) (place : Place) (segments : List Text) : Except SystemError Place :=
  (segments.filter (!Path.isIdle ·)).foldlM d.enter place

/-- The place that a path leads to. If its last segment is idle, that is a folder. -/
def locate (d : Disk) (path : Text) : Except SystemError Place := do
  d.accepts path
  let segments := split '/' path
  let place ← d.follow (d.start path) segments
  if segments.getLast?.any Path.isIdle && !d.isFolder place then .error .notAFolder
  else .ok place

/-- Whether a path leads to a file. -/
def hasFile (d : Disk) (path : Text) : Bool :=
  match d.locate path with
  | .ok place => d.isFile place
  | .error _ => false

/-- Whether a path leads to a folder. -/
def hasFolder (d : Disk) (path : Text) : Bool :=
  match d.locate path with
  | .ok place => d.isFolder place
  | .error _ => false

/-- The text of the file that a path leads to. -/
def read (d : Disk) (path : Text) : Except SystemError Text := do
  match d.content? (← d.locate path) with
  | some (.text t) => .ok t
  | some (.binary _) => .error .notText
  | none => .error .isAFolder

/-! ## Changing a disk -/

/-- The folder that a path leads to without its last segment, and that segment. Slashes at the end
do not count; the root has no last segment. -/
def locateLast (d : Disk) (path : Text) : Except SystemError (Option (Place × Text)) := do
  d.accepts path
  match (split '/' path).reverse.dropWhile (·.isEmpty) with
  | [] => return none
  | last :: before =>
    let place ← d.follow (d.start path) before.reverse
    if d.isFolder place then return some (place, last) else .error .notAFolder

/-- A disk with a new folder. -/
def createFolder (d : Disk) (path : Text) : Except SystemError Disk := do
  match ← d.locateLast path with
  | none => .error .alreadyExists
  | some (place, name) =>
    if name = ['.'] ∨ name = ['.', '.'] then .error .alreadyExists
    else if nameLimit < byteLength name then .error .nameTooLong
    else if d.isThere (place ++ [name]) then .error .alreadyExists
    else return { d with folders := d.folders ++ [place ++ [name]] }

/-- The file at a place replaced, or added behind all others. -/
def put (d : Disk) (place : Place) (t : Text) : Disk :=
  { d with
    files :=
      if d.isFile place then
        d.files.map fun file => if file.1 = place then (place, .text t) else file
      else d.files ++ [(place, .text t)] }

/-- A disk with a file written, which may be a new one. -/
def write (d : Disk) (path t : Text) : Except SystemError Disk := do
  match ← d.locateLast path with
  | none => .error .isAFolder
  | some (place, name) =>
    if path.getLast? = some '/' ∨ name = ['.'] ∨ name = ['.', '.'] then .error .isAFolder
    else if nameLimit < byteLength name then .error .nameTooLong
    else if d.isFolder (place ++ [name]) then .error .isAFolder
    else return d.put (place ++ [name]) t

/-- The files of a disk that are not on `old`, or hold something else there. -/
def changes (old new : Disk) : List (Place × Content) :=
  new.files.filter fun (place, content) => old.content? place ≠ some content

end Disk

end ScopedStyles
