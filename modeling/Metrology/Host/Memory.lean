import Metrology.Host.Shell.Run

/-!
# A host in memory

A file tree as the surroundings of a session: files are read from and written to
the tree, and its programs run on it.

The tree serves to run sessions where there is no operating system.  It is no part
of what a session does: theorems about sessions are about every host, and this
host only runs the document on which one of them is tried out.
-/

namespace Metrology
namespace FileTree

/-- Runs a change of the tree that may fail. -/
def update (change : FileTree → Except FileError FileTree) :
    StateM FileTree (Except FileError Unit) := do
  match change (← get) with
  | .ok t =>
    MonadState.set t
    return .ok ()
  | .error e => return .error e

/-- Starts a program.  Texts that are handed to a program cannot hold a null character. -/
def start (command : String) (arguments : List String) (input : String) :
    StateM FileTree (Except FileError Finished) := do
  if (command :: arguments).any fun a => a.toList.contains '\x00' then
    return .error .nulInArgument
  let t ← get
  match t.program? command with
  | .error e => return .error e
  | .ok p =>
    let (finished, t) := p.run command arguments (Utf8.encode input) t
    MonadState.set t
    return .ok finished

/-- The tree as a host. -/
def host : Host (StateM FileTree) where
  workingDirectory := do return .ok ("/" ++ "/".intercalate (← get).workingDirectory)
  isFile path := do return (← get).isFile path
  isDirectory path := do return (← get).isDirectory path
  readText path := do return (← get).readText path
  makeDirectory path := update fun t => t.makeDirectory path
  writeText path text := update fun t => t.writeText path text
  run := start

/-- Puts a file into the tree, with the directories around it. -/
def place (path text : String) : StateM FileTree Unit := do
  let _ ← host.makeDirectories ((Path.parent? path).getD "")
  let _ ← host.writeText path text

/-- A tree whose working directory holds some files. -/
def ofFiles (workingDirectory : List String) (files : List (String × String)) : FileTree :=
  let start : FileTree := ⟨workingDirectory, (workingDirectory, .directory) :: standardEntries⟩
  ((files.forM fun file => place file.1 file.2).run start).2

end FileTree
end Metrology
