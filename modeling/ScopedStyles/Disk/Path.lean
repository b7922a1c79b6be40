import ScopedStyles.Text.Basic

/-!
# Paths

A path is a text that leads to a file or folder, through segments with slashes between them. Some
segments lead nowhere: an empty one, and `.` unless it is the first. Two paths are the same path if
they agree in all other segments.
-/

namespace ScopedStyles.Path

open Text

/-- Whether a path begins at the root. -/
def isAbsolute (path : Text) : Bool := ['/'].isPrefixOf path

/-- Whether a segment stays where it is. -/
def isIdle (segment : Text) : Bool := segment == [] || segment == ['.']

/-- The segments that say which path this is. A path from the root begins with an empty segment. -/
def segments (path : Text) : List Text :=
  match split '/' path with
  | [] => []
  | first :: rest =>
    if path = [] then []
    else if isAbsolute path || first == ['.'] then first :: rest.filter (!isIdle ·)
    else (first :: rest).filter (!isIdle ·)

/-- Whether two texts are the same path. -/
def same (p q : Text) : Bool := segments p == segments q

/-- A path behind a folder. A path from the root stands for itself. -/
def join (folder path : Text) : Text :=
  if isAbsolute path then path
  else
    match folder.getLast? with
    | none => path
    | some '/' => folder ++ path
    | some _ => folder ++ '/' :: path

/-- Segments, the last one first, without those that stay where they are. The first segment of the
path is kept. -/
def dropIdle : List Text → List Text
  | [] => []
  | [first] => [first]
  | segment :: below => if isIdle segment then dropIdle below else segment :: below

/-- The path without its last segment. The root and the empty path have none. -/
def parent? (path : Text) : Option Text :=
  match dropIdle (split '/' path).reverse with
  | [] => none
  | [first] => if first = [] then none else some []
  | _ :: below =>
    match dropIdle below with
    | [[]] => some ['/']
    | below => some (['/'].intercalate below.reverse)

end ScopedStyles.Path
