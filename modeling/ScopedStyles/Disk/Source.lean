import ScopedStyles.Disk.Basic
import ScopedStyles.Loading.Basic

/-!
# Stylesheets on a disk

The stylesheets below a root folder are found by their path from there. The schemas `package` and
`asset` mean the same folder.
-/

namespace ScopedStyles

open Text

namespace Url

/-- The path that a url stands for: what is behind its schema, if that is `package` or `asset`. -/
def path (url : Text) : Text :=
  match after? .exact "package:".toList url with
  | some path => path
  | none => (after? .exact "asset:".toList url).getD url

end Url

namespace Disk

/-- How deep imports are followed on a disk. -/
def importDepth : Nat := 65536

/-- The stylesheets below the folder at the path `root`. -/
def stylesheets (d : Disk) (root : Text) : Source SystemError where
  read url := d.read (Path.join root (Url.path url))
  depth := importDepth

end Disk

end ScopedStyles
