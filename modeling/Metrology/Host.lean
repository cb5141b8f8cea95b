import Metrology.Path
import Metrology.Solve.Error
import Metrology.Text.Utf8

/-!
# The surroundings of a session

A host gives access to files and to other programs.  Everything a session does
with its surroundings goes through one, so sessions can run on the real file
system as well as on a tree in memory.
-/

namespace Metrology

/-- Why an access to the file system fails. -/
inductive FileError where
  | notFound
  | denied
  | alreadyExists
  | notDirectory
  | isDirectory
  | nameTooLong
  | unsupported
  | notText
  | nulInName
  | nulInArgument
  | noTree
  | other (text : String)
deriving DecidableEq

namespace FileError

/-- What went wrong. -/
def reason : FileError → String
  | notFound => "No such file or directory"
  | denied => "Permission denied"
  | alreadyExists => "File exists"
  | notDirectory => "Not a directory"
  | isDirectory => "Is a directory"
  | nameTooLong => "File name too long"
  | unsupported => "Function not implemented"
  | notText => "stream did not contain valid UTF-8"
  | nulInName => "file name contained an unexpected NUL byte"
  | nulInArgument => "nul byte found in provided data"
  | noTree => "failed to create whole tree"
  | other text => text

/-- The number that systems give the error. -/
def number? : FileError → Option Nat
  | notFound => some 2
  | denied => some 13
  | alreadyExists => some 17
  | notDirectory => some 20
  | isDirectory => some 21
  | nameTooLong => some 36
  | unsupported => some 38
  | _ => none

/-- The text of the error, with its number if it has one. -/
def message (e : FileError) : String :=
  match e.number? with
  | some n => e.reason ++ s!" (os error {n})"
  | none => e.reason

/-- The error as shown to the user. -/
def diagnostic (e : FileError) : Diagnostic where
  message := e.message

end FileError

/-- How a program ended. -/
inductive ExitStatus where
  | code (n : Nat)
  | signal (n : Nat)
deriving DecidableEq

namespace ExitStatus

/-- The names of signals that end programs. -/
def signals : List (Nat × String) :=
  [(1, "SIGHUP"), (2, "SIGINT"), (3, "SIGQUIT"), (4, "SIGILL"), (5, "SIGTRAP"), (6, "SIGABRT"),
    (7, "SIGBUS"), (8, "SIGFPE"), (9, "SIGKILL"), (10, "SIGUSR1"), (11, "SIGSEGV"),
    (12, "SIGUSR2"), (13, "SIGPIPE"), (14, "SIGALRM"), (15, "SIGTERM"), (16, "SIGSTKFLT"),
    (24, "SIGXCPU"), (25, "SIGXFSZ"), (26, "SIGVTALRM"), (27, "SIGPROF"), (29, "SIGIO"),
    (30, "SIGPWR"), (31, "SIGSYS")]

/-- The text of a status. -/
def render : ExitStatus → String
  | code n => s!"exit status: {n}"
  | signal n =>
    match signals.lookup n with
    | some name => s!"signal: {n} ({name})"
    | none => s!"signal: {n}"

end ExitStatus

/-- What a program that ended has left. -/
structure Finished where
  status : ExitStatus
  output : List UInt8
  complaint : List UInt8
deriving DecidableEq

/-- Access to files and programs. -/
structure Host (m : Type → Type) where
  /-- The directory that relative paths start from. -/
  workingDirectory : m (Except FileError String)
  isFile : String → m Bool
  isDirectory : String → m Bool
  readText : String → m (Except FileError String)
  /-- Makes a directory inside an existing one. -/
  makeDirectory : String → m (Except FileError Unit)
  writeText : String → String → m (Except FileError Unit)
  /-- Runs a program with arguments on an input. -/
  run : String → List String → String → m (Except FileError Finished)

/-- The answer of a program that was run as an eliminator. -/
def toolAnswer (program : String) : Except FileError Finished → Except SolveError String
  | .error e => .error (.unavailable (.cannotStart program e.message))
  | .ok finished =>
    if finished.status = .code 0 then
      match Utf8.decode? finished.output with
      | some text => .ok text
      | none => .error (.malformed (.notUtf8 program))
    else
      let complaint := Text.trim (Utf8.decodeLossy finished.complaint).toList
      .error (.unavailable
        (.exited program finished.status.render (String.ofList complaint)))

namespace Host

variable {m : Type → Type} [Monad m]

/-- Makes a directory, which may be there already. -/
def ensureDirectory (host : Host m) (path : String) (made : Except FileError Unit) :
    m (Except FileError Unit) := do
  match made with
  | .ok () => return .ok ()
  | .error e => if ← host.isDirectory path then return .ok () else return .error e

/-- Makes the first of some nested directories, after the ones around it if they are missing. -/
def makeNested (host : Host m) : List String → m (Except FileError Unit)
  | [] => return .error .noTree
  | path :: around => do
    if path == "" then return .ok ()
    match ← host.makeDirectory path with
    | .error .notFound =>
      match ← host.makeNested around with
      | .error e => return .error e
      | .ok () => host.ensureDirectory path (← host.makeDirectory path)
    | made => host.ensureDirectory path made

/-- Makes a directory with all those above it. -/
def makeDirectories (host : Host m) (path : String) : m (Except FileError Unit) :=
  host.makeNested (Path.ancestors path)

/-- Solves a system by a program that reads it and writes its results. -/
def eliminate (host : Host m) (program : String) (arguments : List String) (system : String) :
    m (Except SolveError String) := do
  return toolAnswer program (← host.run program arguments system)

end Host
end Metrology
