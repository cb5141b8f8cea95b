import Metrology.Host.Shell.Script
import Metrology.Host.Tree
import Metrology.Text.Numeral

/-!
# The state of a shell

What a running shell knows: its arguments and variables, where its streams go, the
files, and whether it still runs the next command.

This is a part of the shell of the host in memory, on which no theorem about
sessions rests.
-/

namespace Metrology
namespace Shell

/-- Where a stream goes. -/
inductive Sink where
  | output
  | complaint
  /-- What is collected for a word or for the next command of a pipeline. -/
  | collected
  | void
  | file (path : String)
deriving DecidableEq

/-- What a shell does next. -/
inductive Flow where
  | running
  /-- Ends some loops around the command, of which the last one may go on. -/
  | leaving (loops : Nat) (again : Bool)
  /-- Ends the function around the command. -/
  | returning
  | ended (status : ExitStatus)
deriving DecidableEq

/-- A shell that runs. -/
structure State where
  name : String
  /-- The number of the shell's process. -/
  process : Nat
  arguments : List String
  values : SortedMap String String
  /-- The variables that programs are given. -/
  exported : List String := []
  /-- The variables that keep their values. -/
  fixed : List String := []
  functions : List (String × Command) := []
  /-- The status of the last command. -/
  status : Nat := 0
  /-- The status of the last command whose output became part of a word. -/
  outputStatus : Option Nat := none
  line : Nat := 1
  input : List UInt8
  sinks : List (Nat × Sink) := [(1, .output), (2, .complaint)]
  output : List UInt8 := []
  complaint : List UInt8 := []
  collected : List UInt8 := []
  tree : FileTree
  flow : Flow := .running
  /-- Whether the shell ends when a command fails. -/
  strict : Bool := false
  /-- Whether a failure of the current command counts for `strict`. -/
  guarded : Bool := false
  /-- Whether a parameter without a value is a mistake. -/
  demanding : Bool := false
  /-- Whether the shell shows commands before it runs them. -/
  tracing : Bool := false
  /-- The number of loops around the current command. -/
  loops : Nat := 0
  /-- The values that a function's own variables had before it. -/
  hidden : List (String × Option String) := []
  /-- What to do at a signal or at the end. -/
  traps : List (String × String) := []
  /-- The processes that wait for the shell, and one of them with a signal that was sent to it. -/
  parents : List Nat := []
  struck : Option (Nat × Nat) := none
  /-- What is to be done as soon as the current command ends. -/
  pending : List String := []

/-- A routine of a shell. -/
abbrev Routine := StateM State

namespace Routine

/-- Whether the shell goes on with the next command. -/
def isRunning : Routine Bool := do return (← get).flow = .running

/-- Sets the status of the last command. -/
def finish (status : Nat) : Routine Unit := modify fun s => { s with status }

/-- Ends the shell. -/
def endWith (status : ExitStatus) : Routine Unit :=
  modify fun s => { s with flow := .ended status }

/-- Writes bytes to a sink. -/
def writeTo (sink : Sink) (bytes : List UInt8) : Routine Unit :=
  modify fun s =>
    match sink with
    | .output => { s with output := s.output ++ bytes }
    | .complaint => { s with complaint := s.complaint ++ bytes }
    | .collected => { s with collected := s.collected ++ bytes }
    | .void => s
    | .file path =>
      match s.tree.writeBytes path true bytes with
      | .ok tree => { s with tree }
      | .error _ => s

/-- Writes bytes to a stream. -/
def write (stream : Nat) (bytes : List UInt8) : Routine Unit := do
  match (← get).sinks.lookup stream with
  | some sink => writeTo sink bytes
  | none => pure ()

/-- Writes a complaint with the shell's name and the line. -/
def complain (text : String) : Routine Unit := do
  let s ← get
  write 2 (Utf8.encode s!"{s.name}: {s.line}: {text}\n")

/-- Fails with a complaint. -/
def fail (text : String) (status : Nat) : Routine Unit := do
  complain text
  finish status

/-- Ends the shell with a complaint. -/
def abandon (text : String) : Routine Unit := do
  complain text
  endWith (.code 2)

/-- The value of a variable. -/
def value? (name : String) : Routine (Option String) := do return (← get).values.get? name

/-- Sets a variable; to set one that keeps its value ends the shell. -/
def assign (name value : String) : Routine Unit := do
  let s ← get
  if s.fixed.contains name then abandon (name ++ ": is read only")
  else set { s with values := s.values.insert name value }

/-- Restores a variable. -/
def restore (saved : String × Option String) : Routine Unit :=
  modify fun s =>
    match saved.2 with
    | some value => { s with values := s.values.insert saved.1 value }
    | none => { s with values := s.values.erase saved.1 }

/-- The characters that divide fields. -/
def separators : Routine String := do return (← value? "IFS").getD " \t\n"

/-- The value of a parameter that is one text. -/
def parameter? (name : String) : Routine (Option String) := do
  let s ← get
  match name with
  | "#" => return some (toString s.arguments.length)
  | "?" => return some (toString s.status)
  | "$" => return some (toString s.process)
  | "!" => return none
  | "-" => return some ((if s.strict then "e" else "") ++ (if s.demanding then "u" else "") ++
      (if s.tracing then "x" else ""))
  | "0" => return some s.name
  | name =>
    match Numeral.digits? name.toList with
    | some n => return s.arguments[n - 1]?
    | none => return s.values.get? name

/-- Runs an action in a shell of its own, which shares streams and files.  A signal to the
shell ends both. -/
def separately (action : Routine Unit) : Routine Unit := do
  let before ← get
  set { before with traps := [], loops := 0 }
  action
  let after ← get
  let (status, flow) := match after.flow with
    | .ended (.code n) => (n, Flow.running)
    | .ended (.signal n) => (after.status, .ended (.signal n))
    | _ => (after.status, .running)
  set { before with
    status, flow
    input := after.input
    output := after.output
    complaint := after.complaint
    collected := after.collected
    struck := after.struck
    tree := { after.tree with workingDirectory := before.tree.workingDirectory } }

/-- Collects what an action writes to its output. -/
def collect (action : Routine Unit) : Routine (List UInt8) := do
  let before ← get
  set { before with collected := [], sinks := (1, .collected) :: before.sinks }
  action
  let after ← get
  set { after with collected := before.collected, sinks := before.sinks }
  return after.collected

/-- Runs an action on other input and puts the input back. -/
def feeding (input : List UInt8) (action : Routine Unit) : Routine Unit := do
  let before ← get
  set { before with input }
  action
  modify fun s => { s with input := before.input }

/-- Runs an action in which failures do not end the shell. -/
def unguarded (action : Routine Unit) : Routine Unit := do
  let before ← get
  set { before with guarded := true }
  action
  modify fun s => { s with guarded := before.guarded }

/-- Ends a strict shell after a failure. -/
def checkFailure : Routine Unit := do
  let s ← get
  if s.strict && !s.guarded && s.status != 0 && s.flow = .running then
    endWith (.code s.status)

end Routine
end Shell
end Metrology
