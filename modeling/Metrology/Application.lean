import Metrology.CommandLine

/-!
# The application

Carries out a command line on a host: it finds the manifest, fixes the session,
reads the document and shows a report.  What was shown before a failure stays.
-/

namespace Metrology
namespace Application

open CommandLine

/-- Why a command fails. -/
inductive Failure where
  | manifest (error : ManifestError)
  | config (error : ConfigError)
  | document (error : DocumentError)
  | file (error : FileError)
  | emit (error : Session.EmitError)
  | unsolved (path : String)
  | unassigned (name location : String)
  | violated (count : Nat)

/-- The failure as shown to the user. -/
def Failure.diagnostic : Failure → Diagnostic
  | manifest e => e.diagnostic
  | config e => e.diagnostic
  | document e => e.diagnostic
  | file e => e.diagnostic
  | emit e => e.diagnostic
  | unsolved path => { message := s!"could not infer units for {path}" }
  | unassigned name location =>
    { message := s!"slot `{name}` ({location}) has no unit; pass --solution or use `infer`" }
  | violated count => { message := s!"{count} constraint(s) violated" }

/-- A step that prints and may fail. -/
abbrev Run (m : Type → Type) := ExceptT Failure (StateT String m)

variable {m : Type → Type} [Monad m]

/-- A result whose error is a failure of the command. -/
def orFail {ε α : Type} (failure : ε → Failure) : Except ε α → Run m α
  | .ok a => return a
  | .error e => throw (failure e)

/-- A step on the host. -/
def onHost {α : Type} (step : m α) : Run m α := ExceptT.lift (StateT.lift step)

/-- Prints a text. -/
def print (text : String) : Run m Unit := modify (· ++ text)

/-- Shows a report in a format. -/
def present {α : Type} [Report α] (format : Format) (report : α) : String :=
  match format with
  | .text => Report.text report
  | .json => Json.write (Report.data report) ++ "\n"

/-- Fixes the session for a path. -/
def openSession (host : Host m) (overrides : Overrides) (start : String) : Run m Session := do
  let manifest ← orFail .manifest (← onHost (Manifest.resolve host start))
  orFail .config (Session.configure manifest overrides)

/-- Reads the document in a file. -/
def loadDocument (path : String) : Except FileError String → Except DocumentError Document
  | .error e => .error (.unreadable path e.message)
  | .ok text =>
    match Document.read text with
    | .ok doc => .ok doc
    | .error e => .error (.inFile path e)

/-- Builds the model of the document in a file. -/
def load (host : Host m) (s : Session) (path : String) : Run m NamedModel := do
  let text ← onHost (host.readText path)
  orFail .document (loadDocument path text >>= fun doc => doc.build s.toVocabulary)

/-- The assignment in a file; without one no slot may be unknown. -/
def loadAssignment (host : Host m) (s : Session) (named : NamedModel) :
    Option String → Run m Assignment
  | some path => do
    let text ← orFail .file (← onHost (host.readText path))
    orFail .document (named.readAssignment s.toVocabulary text)
  | none =>
    match named.model.unknowns with
    | (id, location) :: _ => throw (.unassigned (named.nameOf id) location)
    | [] => return SortedMap.empty

/-- Carries out a command. -/
def execute (host : Host m) (overrides : Overrides) : Command → Run m Unit
  | .infer path format denyUnsolved => do
    let s ← openSession host overrides path
    let named ← load host s path
    let report ← onHost (s.infer host path named)
    print (present format report)
    if denyUnsolved && !report.ok then throw (.unsolved path)
  | .check path solution format => do
    let s ← openSession host overrides path
    let named ← load host s path
    let assignment ← loadAssignment host s named solution
    let report := Session.check path named assignment
    print (present format report)
    if !report.ok then throw (.violated report.violations.length)
  | .emit path out => do
    let s ← openSession host overrides path
    let named ← load host s path
    let written ← orFail .emit (← onHost (Session.emit host named out).run)
    print (unlines written)
  | .lattice format => do
    let dir ← orFail .file (← onHost host.workingDirectory)
    let s ← openSession host overrides dir
    print (present format (← orFail .config s.latticeReport))

/-- What is left of a command: its output and, if it failed, why. -/
structure Outcome where
  output : String
  failure : Option Failure

/-- Runs an invocation. -/
def run (host : Host m) (invocation : Invocation) : m Outcome := do
  let (result, output) ← (execute host invocation.overrides invocation.command).run.run ""
  match result with
  | .ok () => return ⟨output, none⟩
  | .error e => return ⟨output, some e⟩

end Application
end Metrology
