import ScopedStyles.Disk.Basic

/-!
# Creating folders

`Disk.createFolders` creates a folder with whatever is missing on the way to it. It begins at the
end of the path and goes back as far as it has to.
-/

namespace ScopedStyles

open Text

namespace Disk

/-- A disk on which a path leads to a folder: folders are created as needed. The path is written
with fewer segments in each step back, so its length bounds the steps. -/
def createFoldersWithin (d : Disk) : (steps : Nat) → (path : Text) → Except SystemError Disk
  | 0, _ => .error .notFound
  | steps + 1, path =>
    if path = [] then .ok d
    else
      match d.createFolder path with
      | .ok d => .ok d
      | .error .notFound =>
        match Path.parent? path with
        | none => .error .notFound
        | some parent =>
          match d.createFoldersWithin steps parent with
          | .error e => .error e
          | .ok d =>
            match d.createFolder path with
            | .ok d => .ok d
            | .error e => if d.hasFolder path then .ok d else .error e
      | .error e => if d.hasFolder path then .ok d else .error e

/-- A disk on which a path leads to a folder, if the system allows it. -/
def createFolders (d : Disk) (path : Text) : Except SystemError Disk :=
  d.createFoldersWithin (path.length + 1) path

end Disk

end ScopedStyles
