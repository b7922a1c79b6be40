import ScopedStyles.Program

/-!
# The executable

The program runs on a `Disk` that has what it needs of the real one. The folders that patterns go
through are read first. Whatever else a run comes to and does not find is looked up on the real
disk, and if it is there the program is run again. In the end the files that have changed are
written.

Places are taken from paths as they are written, so that a symbolic link is the folder or file it
leads to.
-/

namespace ScopedStyles.Executable

open Text

/-- The names that a path leads through, without looking. -/
def placeOf (d : Disk) (path : Text) : Place :=
  (split '/' path).foldl
    (fun place name =>
      if Path.isIdle name then place
      else if name = ['.', '.'] then place.dropLast
      else place ++ [name])
    (d.start path)

/-- The folder that a pattern begins in: its segments before the first one with a wildcard. -/
def patternFolder (pattern : Text) : Text :=
  match (split '/' pattern).takeWhile (!Batch.isPattern ·) with
  | [] => ['.']
  | [[]] => ['/']
  | segments => ['/'].intercalate segments

/-- A disk with a file of the real disk. -/
def addFile (d : Disk) (path : String) : IO Disk := do
  let bytes ← IO.FS.readBinFile path
  return { d with files := d.files ++ [(placeOf d path.toList, .ofBytes bytes)] }

/-- A disk with everything in a folder of the real disk. -/
partial def addFolder (d : Disk) (path : String) : IO Disk := do
  let mut d := { d with folders := d.folders ++ [placeOf d path.toList] }
  for entry in ← (← IO.FS.realPath path).readDir do
    let child := path ++ "/" ++ entry.fileName
    if ← entry.path.isDir then d ← addFolder d child
    else d ← addFile d child
  return d

/-- A disk with what there is at a path on the real disk, if there is anything. -/
def addPath? (d : Disk) (path : Text) : IO (Option Disk) := do
  if d.isThere (placeOf d path) then return none
  try
    let path := String.ofList path
    let real ← IO.FS.realPath path
    if ← real.isDir then
      return some { d with folders := d.folders ++ [placeOf d path.toList] }
    else if ← real.pathExists then return some (← addFile d path)
    else return none
  catch _ => return none

/-- Runs the program, as often as it comes to something that is not on the disk yet. The disk is
answered as it was before the last run. -/
partial def run (arguments : List Text) (d : Disk) : IO (Disk × Program) := do
  let p := Program.run arguments d
  match p.missing with
  | none => return (d, p)
  | some path =>
    match ← addPath? d path with
    | none => return (d, p)
    | some d => run arguments d

/-- Writes the files that have changed. -/
def writeChanges (old new : Disk) : IO Unit := do
  for (place, content) in Disk.changes old new do
    IO.FS.createDirAll (String.ofList (Place.path place.dropLast))
    let path := String.ofList place.path
    match content with
    | .text t => IO.FS.writeFile path (String.ofList t)
    | .binary bytes => IO.FS.writeBinFile path (ByteArray.mk bytes.toArray)

end ScopedStyles.Executable

open ScopedStyles in
/-- Runs the program on the real disk. -/
def main (arguments : List String) : IO UInt32 := do
  let arguments := arguments.map String.toList
  let home := (Text.split '/' (← IO.currentDir).toString.toList).filter (!Path.isIdle ·)
  let mut d : Disk := { home }
  for pattern in arguments.filter Batch.isPattern do
    try d ← Executable.addFolder d (String.ofList (Executable.patternFolder pattern))
    catch _ => pure ()
  let (old, p) ← Executable.run arguments d
  Executable.writeChanges old p.disk
  IO.print (String.ofList p.output)
  if let some e := p.error then
    IO.eprintln ("Error: " ++ String.ofList e)
  if p.status = 2 then
    IO.eprintln (String.ofList Program.help)
  return UInt32.ofNat p.status
