import Metrology.Application

/-!
# The program

The command line on the real file system.  Other programs cannot be started here.
-/

namespace Metrology

/-- The cause of a failed access. -/
def FileError.ofFailure : IO.Error → FileError
  | .noFileOrDirectory .. => notFound
  | .permissionDenied .. => denied
  | .alreadyExists .. => alreadyExists
  | .inappropriateType _ 20 _ => notDirectory
  | .inappropriateType _ 21 _ => isDirectory
  | e => other (toString e)

/-- An access to the file system with its failure as a value. -/
def attempt {α : Type} (access : IO α) : IO (Except FileError α) := do
  match ← access.toBaseIO with
  | .ok a => return .ok a
  | .error e => return .error (FileError.ofFailure e)

/-- The real file system as a host. -/
def realHost : Host IO where
  workingDirectory := attempt (do return (← IO.currentDir).toString)
  isFile path := do
    match ← attempt (IO.FS.readBinFile path) with
    | .ok _ => return true
    | .error _ => return false
  isDirectory path := do
    match ← attempt (IO.FS.readBinFile path) with
    | .error .isDirectory => return true
    | _ => return false
  readText path := attempt (IO.FS.readFile path)
  makeDirectory path := attempt (IO.FS.createDir path)
  writeText path text := attempt (IO.FS.writeFile path text)
  run _ _ _ := return .error .unsupported

/-- Shows why a command failed. -/
def complain (d : Diagnostic) : IO Unit := do
  IO.eprintln s!"error: {d.message}"
  if let some help := d.help then IO.eprintln s!"help: {help}"

end Metrology

/-- Runs a command line and returns its exit code. -/
def main (words : List String) : IO UInt32 := do
  match Metrology.CommandLine.read words with
  | .error e =>
    if e.isRequest then
      IO.print e.message
      return 0
    else
      IO.eprint e.message
      return 2
  | .ok invocation =>
    let outcome ← Metrology.Application.run Metrology.realHost invocation
    IO.print outcome.output
    match outcome.failure with
    | none => return 0
    | some failure =>
      Metrology.complain failure.diagnostic
      return 1
