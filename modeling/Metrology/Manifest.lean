import Metrology.Data.Toml
import Metrology.Diagnostic
import Metrology.Host
import Metrology.Path
import Metrology.Solve.Backend

/-!
# Manifests

A manifest fixes the dimensions, names and tools of a project.  It is the nearest
`units.toml` at or above the place where a session starts; a project without one
has default dimensions.
-/

namespace Metrology

/-- How much a session logs. -/
structure Logging where
  filter : String := "warn"
  json : Bool := false
deriving DecidableEq

/-- The choices of a project. -/
structure Manifest where
  /-- The file it was read from. -/
  path : Option String := none
  /-- The directory of the project. -/
  root : String
  dimensions : List String := ["m", "s", "g"]
  backend : Backend := default
  timeoutMs : Option Nat := none
  /-- A program that solves linear systems. -/
  tool : Option String := none
  /-- Where the linear systems of a solve are written to. -/
  dumpDir : Option String := none
  /-- Names of units in name order. -/
  aliases : List (String × Monomial) := []
  logging : Logging := {}
deriving DecidableEq

/-- What can be wrong with a manifest. -/
inductive ManifestError where
  | unparsable
  | noDimensions
  | unreadable (path : String) (error : FileError)
  | inFile (path : String) (cause : ManifestError)

namespace ManifestError

/-- What is wrong, without the heading. -/
def detail : ManifestError → String
  | unparsable => "failed to parse"
  | noDimensions => "`[session] dimensions` must list at least one base dimension"
  | unreadable path error =>
    let text := error.message
    s!"failed to read {path}: {text}"
  | inFile path cause => path ++ ": " ++ cause.detail

/-- The text of the error. -/
def message (e : ManifestError) : String := "manifest error: " ++ e.detail

/-- The error as shown to the user. -/
def diagnostic (e : ManifestError) : Diagnostic where
  message := e.message
  code := some "units::manifest"

end ManifestError

namespace Manifest

/-- The name of manifest files. -/
def fileName : String := "units.toml"

/-! ### Reading -/

/-- Reads a backend: its name, or a table with the name as the only key and nothing in it. -/
def backend? : Data → Option Backend
  | .text name => Backend.ofName? name
  | .record [(name, .record [])] => Backend.ofName? name
  | .record [(name, .list [])] => Backend.ofName? name
  | _ => none

/-- The section on the session: dimensions, backend and time limit. -/
def session? (d : Data) : Option (List String × Option Backend × Option Nat) := do
  match ← d.fields? ["dimensions", "backend", "timeout_ms"] .refused .ignored with
  | [dimensions, backend, timeout] =>
    return (← Data.withDefault? [] Data.texts? dimensions, ← Data.optional? backend? backend,
      ← Data.optional? (Data.natOfBits? 32) timeout)
  | _ => none

/-- The section on linear systems: the program and the directory to write to. -/
def elimination? (d : Data) : Option (Option String × Option String) := do
  match ← d.fields? ["tool", "dump_dir"] .refused .ignored with
  | [tool, dumpDir] =>
    return (← Data.optional? Data.text? tool, ← Data.optional? Data.text? dumpDir)
  | _ => none

/-- The section on logging. -/
def logging? (d : Data) : Option Logging := do
  match ← d.fields? ["filter", "json"] .ignored .ignored with
  | [filter, json] =>
    return { filter := ← Data.withDefault? "warn" Data.text? filter
             json := ← Data.withDefault? false Data.bool? json }
  | _ => none

/-- Reads the value of a manifest, in which dimensions may repeat. -/
def ofData? (d : Data) : Option Manifest := do
  match ← d.fields? ["session", "gje", "aliases", "logging"] .refused .ignored with
  | [session, elimination, aliases, logging] =>
    let (dimensions, backend, timeoutMs) ← Data.withDefault? ([], none, none) session? session
    let (tool, dumpDir) ← Data.withDefault? (none, none) elimination? elimination
    let aliases ← Data.withDefault? SortedMap.empty (Data.map? (Data.monomial? .ignored)) aliases
    let logging ← Data.withDefault? {} logging? logging
    return { root := ".", dimensions, backend := backend.getD default, timeoutMs, tool, dumpDir,
             aliases := aliases.entries, logging }
  | _ => none

/-- Reads the text of a manifest; its paths stay as they are written. -/
def read (text : String) : Except ManifestError Manifest :=
  match Toml.read? text >>= ofData? with
  | none => .error .unparsable
  | some m =>
    if m.dimensions.isEmpty then .error .noDimensions
    else .ok { m with dimensions := m.dimensions.eraseDups }

/-- The manifest of a file, with its paths taken from the directory of the file. -/
def locatedAt (m : Manifest) (path : String) : Manifest :=
  let root := (Path.parent? path).getD ""
  { m with
    path := some path
    root
    tool := m.tool.map (Path.join root)
    dumpDir := m.dumpDir.map (Path.join root) }

/-! ### Finding -/

/-- The first path that is a file. -/
def firstFile {m : Type → Type} [Monad m] (host : Host m) : List String → m (Option String)
  | [] => return none
  | path :: rest => do
    if ← host.isFile path then return some path else firstFile host rest

/-- The directory that a search from `start` begins in: a file's own directory. -/
def startDirectory {m : Type → Type} [Monad m] (host : Host m) (start : String) :
    m (Option String) := do
  if ← host.isFile start then return Path.parent? start else return some start

/-- The nearest manifest at or above a path. -/
def find {m : Type → Type} [Monad m] (host : Host m) (start : String) : m (Option String) := do
  match ← startDirectory host start with
  | none => return none
  | some dir => firstFile host ((Path.ancestors dir).map fun d => Path.join d fileName)

/-- Reads the manifest in a file. -/
def load {m : Type → Type} [Monad m] (host : Host m) (path : String) :
    m (Except ManifestError Manifest) := do
  match ← host.readText path with
  | .error e => return .error (.unreadable path e)
  | .ok text =>
    match read text with
    | .error e => return .error (.inFile path e)
    | .ok manifest => return .ok (manifest.locatedAt path)

/-- The manifest of the project around a path, or the default choices. -/
def resolve {m : Type → Type} [Monad m] (host : Host m) (start : String) :
    m (Except ManifestError Manifest) := do
  let dir := (← startDirectory host start).getD "."
  match ← find host dir with
  | none => return .ok { root := dir }
  | some path => load host path

end Manifest
end Metrology
