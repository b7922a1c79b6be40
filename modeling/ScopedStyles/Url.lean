import ScopedStyles.Text.Basic

/-!
# Urls

A stylesheet is named by a url: a path, or a path behind a schema (`package:a/b.css`). Urls within
stylesheets are resolved against the url of the stylesheet they stand in. Only relative urls and the
schemas `package` and `asset` lead to stylesheets that can be loaded.
-/

namespace ScopedStyles.Url

open Text

/-! ## Schemas -/

/-- Whether a character can stand in a schema. -/
def inSchema (c : Char) : Bool := c != ':' && c != '/' && c != '?' && c != '#'

/-- The schema of a url, with what follows its colon. -/
def schema? (url : Text) : Option (Text × Text) :=
  match url.dropWhile inSchema with
  | ':' :: rest => if url.takeWhile inSchema = [] then none else some (url.takeWhile inSchema, rest)
  | _ => none

/-- Whether a url can lead to a stylesheet: it is relative, or has the schema `package` or
`asset`. -/
def isResolvable (url : Text) : Bool :=
  match url with
  | [] => false
  | '/' :: _ => false
  | _ =>
    match schema? url with
    | some (schema, _) => schema == "package".toList || schema == "asset".toList
    | none => true

/-! ## Paths -/

/-- One step of folding a path. The stack has the segments so far, the last one on top. `..` takes
back a name, but neither an empty segment nor another `..`. -/
def pushSegment (stack : List Text) (segment : Text) : List Text :=
  if segment = ['.'] then stack
  else if segment = ['.', '.'] then
    match stack with
    | [] => [segment]
    | top :: below => if top = [] || top = ['.', '.'] then segment :: stack else below
  else segment :: stack

/-- A path without `.` segments, and without `..` segments wherever they take back a name. -/
def foldDots (path : Text) : Text :=
  ['/'].intercalate ((split '/' path).foldl pushSegment []).reverse

/-- A path up to its last slash. -/
def directory (path : Text) : Text := (path.reverse.dropWhile (· != '/')).reverse

/-! ## Resolving -/

/-- The schema of a url with its colon, if it has one, and the path behind it. -/
def splitSchema (url : Text) : Text × Text :=
  match schema? url with
  | some (schema, path) => (schema ++ [':'], path)
  | none => ([], url)

/-- A url that stands in the stylesheet at `base`. One with a schema or with a path from the root
stands for itself; any other is relative to the directory of the base. -/
def resolve (base url : Text) : Text :=
  if ['/'].isPrefixOf url || (schema? url).isSome then url
  else
    let (schema, path) := splitSchema base
    schema ++ foldDots (directory path ++ url)

end ScopedStyles.Url
