import ScopedStyles.Disk.Basic
import ScopedStyles.Glob.Pattern

/-!
# Expanding patterns

A pattern stands for the paths on a disk that match it segment by segment. `paths` lists them in the
order in which a walk through the folders comes to them, names in order within each folder.

A segment without wildcards is looked up, not matched. The names `.` and `..` are in no folder, but
a segment with wildcards that begins with a point is tried on them too. The wildcard `**` goes
through every folder below, and at the end of a pattern it stands for those folders.
-/

namespace ScopedStyles.Glob

open Text

/-- The path of something in a folder. What is in the folder where the walk starts is called by its
name alone. -/
def childPath (path name : Text) : Text :=
  if Path.same path ['.'] then name else Path.join path name

/-- The names in a folder, each with its path. -/
def children (d : Disk) (path : Text) : List (Text × Text) :=
  match d.locate path with
  | .ok place =>
    if d.isFolder place then (d.names place).map fun name => (name, childPath path name) else []
  | .error _ => []

/-- Everything below a folder, each folder before what is in it; `depth` bounds how far down. -/
def below (d : Disk) : (depth : Nat) → (path : Text) → List (Text × Text)
  | 0, _ => []
  | depth + 1, path =>
    (children d path).flatMap fun (name, child) => (name, child) :: below d depth child

/-- How deep the folders of a disk are. -/
def depth (d : Disk) : Nat := (d.places.map List.length).foldl max 0

/-- Whether a path leads anywhere. -/
def isThere (d : Disk) (path : Text) : Bool :=
  match d.locate path with
  | .ok _ => true
  | .error _ => false

/-- Whether a segment is the wildcard for any number of folders. -/
def isRecursive (segment : List Token) : Bool := segment.contains .anyFolders

/-- The names `..` and `.`, for segments that begin with a point. -/
def specialNames (segment : List Token) : List Text :=
  if segment.head? = some (.char '.') then [['.', '.'], ['.']] else []

/-- The paths that the segments of a pattern stand for, from the folder at `path` on. -/
def walk (d : Disk) (segments : List (List Token)) (path : Text) : List Text :=
  match segments with
  | [] => [path]
  | segment :: rest =>
    match literal? segment with
    | some name =>
      let child := childPath path name
      let found := if name = ['.'] ∨ name = ['.', '.'] then d.hasFolder path else isThere d child
      if found then walk d rest child else []
    | none =>
      if isRecursive segment then
        match _h : rest.dropWhile isRecursive with
        | [] => ((below d (depth d) path).map Prod.snd).filter d.hasFolder
        | next :: others =>
          (below d (depth d) path).flatMap fun (name, child) =>
            if isMatch next name then walk d others child else []
      else
        let special := if d.hasFolder path then specialNames segment else []
        (special.map fun name => (name, Path.join path name)) ++ children d path
          |>.flatMap fun (name, child) =>
            if isMatch segment name then walk d rest child else []
termination_by segments.length
decreasing_by
  · simp
  · have := (List.dropWhile_suffix (l := rest) isRecursive).length_le
    rw [_h] at this
    simp only [List.length_cons] at *
    omega
  · simp

/-- The segments of a path. One slash at the end ends the last segment and begins no other. -/
def splitSegments (t : Text) : List Text :=
  match (split '/' t).reverse with
  | [] :: before => before.reverse
  | _ => split '/' t

/-- The paths that a pattern stands for. A pattern that ends with a slash stands for folders. -/
def paths (d : Disk) (pattern : Text) : Except PatternError (List Text) := do
  discard (tokens pattern)
  let (start, relative) := match pattern with
    | '/' :: t => (['/'], t)
    | t => (['.'], t)
  let segments ← (splitSegments relative).mapM tokens
  let found := walk d segments start
  return if pattern.getLast? = some '/' then found.filter d.hasFolder else found

end ScopedStyles.Glob
