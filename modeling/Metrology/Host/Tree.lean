import Metrology.Host.Program
import Metrology.Path
import Metrology.SortedMap

/-!
# File trees

A tree of directories and files that answers like a file system: paths are walked
name by name, every name but the last must be a directory, and two dots lead up.

This is a part of the host in memory, which stands in for an operating system.
No theorem about sessions rests on it.
-/

namespace Metrology

/-- What a path of a tree leads to. -/
inductive TreeEntry where
  | directory
  | file (bytes : List UInt8)
  | program (p : Program)
  /-- A file that is always empty, whatever is written to it. -/
  | void
deriving DecidableEq

/-- Directories and files by the names that lead to them from the root. -/
structure FileTree where
  workingDirectory : List String
  entries : List (List String × TreeEntry)

namespace FileTree

/-- The directories in which programs are found, the first one first. -/
def programDirectories : List (List String) := [["usr", "bin"], ["bin"]]

/-- The entries of a new tree. -/
def standardEntries : List (List String × TreeEntry) :=
  let directories := [["bin"], ["dev"], ["etc"], ["home"], ["lib"], ["opt"], ["root"], ["sbin"],
    ["tmp"], ["usr"], ["usr", "bin"], ["usr", "lib"], ["usr", "local"], ["usr", "sbin"],
    ["usr", "share"], ["var"], ["var", "tmp"]]
  directories.map (fun names => (names, TreeEntry.directory)) ++
    (["dev", "null"], .void) :: (["etc", "hostname"], .file (Utf8.encode "localhost\n")) ::
    (["etc", "passwd"], .file (Utf8.encode "root:x:0:0:root:/root:/bin/sh\n")) ::
      programDirectories.flatMap fun directory =>
        Program.all.map fun p => (directory ++ [p.1], TreeEntry.program p.2)

/-- What is at some names from the root. -/
def entry? (t : FileTree) (names : List String) : Option TreeEntry :=
  if names.isEmpty then some .directory else t.entries.lookup names

/-- Sets what is at some names from the root. -/
def set (t : FileTree) (names : List String) (entry : TreeEntry) : FileTree :=
  { t with entries := (names, entry) :: t.entries.filter fun e => e.1 != names }

/-- The longest name, in bytes. -/
def maxName : Nat := 255

/-- The longest path, in bytes. -/
def maxPath : Nat := 4095

/-- Fails unless a directory is at some names. -/
def requireDirectory (t : FileTree) (names : List String) : Except FileError Unit :=
  match t.entry? names with
  | some .directory => .ok ()
  | some _ => .error .notDirectory
  | none => .error .notFound

/-- The names from the root that further segments lead to. -/
def walk (t : FileTree) (names : List String) : List String → Except FileError (List String)
  | [] => .ok names
  | segment :: rest => do
    t.requireDirectory names
    if segment == "" || segment == "." then t.walk names rest
    else if segment == ".." then t.walk names.dropLast rest
    else if maxName < segment.utf8ByteSize then throw .nameTooLong
    else t.walk (names ++ [segment]) rest

/-- Where the walk along a path starts. -/
def origin (t : FileTree) (path : String) : List String :=
  if Path.isAbsolute path then [] else t.workingDirectory

/-- Fails for a text that is no path. -/
def requirePath (path : String) : Except FileError Unit :=
  if path.toList.contains '\x00' then .error .nulInName
  else if path == "" then .error .notFound
  else if maxPath < path.utf8ByteSize then .error .nameTooLong
  else .ok ()

/-- The names from the root that a path leads to; only the last of them may be missing. -/
def locate (t : FileTree) (path : String) : Except FileError (List String) := do
  requirePath path
  t.walk (t.origin path) (Path.segments path)

/-- What a path leads to. -/
def open? (t : FileTree) (path : String) : Except FileError TreeEntry := do
  match t.entry? (← t.locate path) with
  | some entry => return entry
  | none => throw .notFound

/-- Whether a path leads to a file. -/
def isFile (t : FileTree) (path : String) : Bool :=
  match t.open? path with
  | .ok (.file _) | .ok (.program _) => true
  | _ => false

/-- Whether a path leads to a directory. -/
def isDirectory (t : FileTree) (path : String) : Bool :=
  match t.open? path with
  | .ok .directory => true
  | _ => false

/-- The first bytes of every program: they start no text. -/
def programBytes : List UInt8 := [0x7F, 0x45, 0x4C, 0x46, 0xFF]

/-- The bytes of a file. -/
def readBytes (t : FileTree) (path : String) : Except FileError (List UInt8) := do
  match ← t.open? path with
  | .file bytes => return bytes
  | .directory => throw .isDirectory
  | .program _ => return programBytes
  | .void => return []

/-- The text of a file. -/
def readText (t : FileTree) (path : String) : Except FileError String := do
  match Utf8.decode? (← t.readBytes path) with
  | some text => return text
  | none => throw .notText

/-- Writes a file, after what it holds already if that is kept. -/
def writeBytes (t : FileTree) (path : String) (keep : Bool) (bytes : List UInt8) :
    Except FileError FileTree := do
  let names ← t.locate path
  match t.entry? names with
  | some .directory => throw .isDirectory
  | some (.program _) => throw .denied
  | some .void => return t
  | some (.file held) => return t.set names (.file (if keep then held ++ bytes else bytes))
  | none => return t.set names (.file bytes)

/-- Writes the text of a file. -/
def writeText (t : FileTree) (path text : String) : Except FileError FileTree :=
  t.writeBytes path false (Utf8.encode text)

/-- Makes one directory. -/
def makeDirectory (t : FileTree) (path : String) : Except FileError FileTree := do
  requirePath path
  match ((Path.segments path).reverse.dropWhile (· == "")) with
  | [] => throw .alreadyExists
  | last :: before =>
    let parent ← t.walk (t.origin path) before.reverse
    let names ← t.walk parent [last]
    if last == "." || last == ".." || (t.entry? names).isSome then throw .alreadyExists
    return t.set names .directory

/-- The program at a path. -/
def programAt (t : FileTree) (path : String) : Except FileError Program := do
  match ← t.open? path with
  | .program p => return p
  | _ => throw .denied

/-- The program of a name in the first directory that has one.  What cannot be run is passed
over, and so is a directory without the name; `failed` is what to say if none is left. -/
def search (t : FileTree) (name : String) (failed : FileError) :
    List (List String) → Except FileError Program
  | [] => .error failed
  | directory :: rest =>
    match t.programAt ("/" ++ "/".intercalate (directory ++ [name])) with
    | .error .notFound | .error .notDirectory => t.search name failed rest
    | .error .denied => t.search name .denied rest
    | found => found

/-- The program that a command stands for: the one at a path, or the one of a name. -/
def program? (t : FileTree) (command : String) : Except FileError Program :=
  if command == "" then .error .notFound
  else if command.toList.contains '/' then t.programAt command
  else t.search command .notFound programDirectories

/-- The files in the working directory, with their paths from it. -/
def files (t : FileTree) : List (String × String) :=
  let below := t.entries.filterMap fun e =>
    match e.2 with
    | .file bytes =>
      if t.workingDirectory.isPrefixOf e.1 then
        some ("/".intercalate (e.1.drop t.workingDirectory.length), Utf8.decodeLossy bytes)
      else none
    | _ => none
  (SortedMap.ofList below).entries

end FileTree
end Metrology
