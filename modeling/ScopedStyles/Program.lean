import ScopedStyles.Batch
import ScopedStyles.CommandLine

/-!
# The program

A run of the program takes a command line and a disk. It answers with what it prints, the status it
ends with, and the disk as it leaves it.
-/

namespace ScopedStyles

open Text

/-- What a run of the program leaves behind. -/
structure Program where
  /-- The exit status: 0 for success, 1 for a fault, 2 for a command line that makes no sense. -/
  status : Nat := 0
  /-- What is printed. -/
  output : Text := []
  /-- What is said about a fault. -/
  error : Option Text := none
  /-- The path that led nowhere, if that is the fault. -/
  missing : Option Text := none
  /-- The disk afterwards. -/
  disk : Disk
  deriving DecidableEq, Repr

namespace Program

/-- The name of the program and its version. -/
def version : Text := "ngshim 0.1.0\n".toList

/-- How the program is used. -/
def help : Text :=
  ("Scope component stylesheets to a host/content attribute pair\n\n" ++
    "Usage: ngshim [OPTIONS] <FILES>...\n").toList

/-- What is printed of a batch: the styles that were not written to a file. -/
def printed (outputs : List Batch.Output) : Text :=
  (outputs.filter fun o => o.path.isNone).flatMap fun o => o.css ++ ['\n']

/-- Runs a batch as the arguments say. -/
def batch (a : Arguments) (d : Disk) : Program :=
  match Batch.options d a with
  | .error e => { status := 1, error := some e.message, missing := e.missing? ['.'], disk := d }
  | .ok o =>
    match Batch.run o d with
    | (.error e, d) =>
      { status := 1, error := some e.message, missing := e.missing? o.root, disk := d }
    | (.ok outputs, d) => { output := printed outputs, disk := d }

/-- Runs the program. -/
def run (arguments : List Text) (d : Disk) : Program :=
  match CommandLine.read arguments with
  | .run a => batch a d
  | .answer .version => { output := version, disk := d }
  | .answer .help => { output := help, disk := d }
  | .misuse => { status := 2, disk := d }

end Program

end ScopedStyles
