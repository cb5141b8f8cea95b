import Metrology.Session
import Metrology.Text.Numeral

/-!
# Command lines

A command line names one of four commands.  Some options belong to a command and
some may stand before or after its name, where the later place counts.  The value
of an option is held back until the next option or the end, and only then looked
at, which decides which of several mistakes is reported.
-/

namespace Metrology
namespace CommandLine

/-- Why a command line asks for no command. -/
inductive UsageError where
  | help
  | version
  /-- Nothing was given at all. -/
  | empty
  | noCommand
  | unknownCommand
  | unknownArgument
  | missingArgument
  | invalidValue
  | rejectedValue
  | superfluousValue
  | repeatedArgument
deriving DecidableEq

namespace UsageError

/-- Whether the line asked for what is shown instead of a command. -/
def isRequest : UsageError → Bool
  | help | version => true
  | _ => false

/-- The commands and options, for help. -/
def usage : String :=
  "Usage: metrology [OPTIONS] <COMMAND>\n\n" ++
  "Commands:\n" ++
  "  infer <PATH> [--format text|json] [--deny-unsolved]\n" ++
  "  check <PATH> [--solution <FILE>] [--format text|json]\n" ++
  "  emit <PATH> --out <DIR>\n" ++
  "  lattice [--format text|json]\n\n" ++
  "Options:\n" ++
  "  --backend smt|gje   --dimension <NAME>   --timeout-ms <N>   --gje-tool <PROGRAM>\n"

/-- What is shown instead of running a command. -/
def message : UsageError → String
  | help | empty => usage
  | version => "metrology 0.2.0\n"
  | noCommand => "a command is required\n"
  | unknownCommand => "unrecognized command\n"
  | unknownArgument => "unexpected argument\n"
  | missingArgument => "a required argument is missing\n"
  | invalidValue => "an argument has no value or none of its possible values\n"
  | rejectedValue => "the value of an argument is not valid\n"
  | superfluousValue => "an argument that takes no value has one\n"
  | repeatedArgument => "an argument cannot be given twice\n"

end UsageError

/-- How a report is shown. -/
inductive Format where
  | text
  | json
deriving DecidableEq

/-- What takes a value. -/
inductive Argument where
  | backend | dimension | timeout | tool | format | solution | out | path
deriving DecidableEq

/-- An option without a value. -/
inductive Flag where
  | help | version | denyUnsolved
deriving DecidableEq

/-- The values of one part of a command line. -/
structure Values where
  backend : Option Backend := none
  dimensions : List String := []
  timeoutMs : Option Nat := none
  tool : Option String := none
  format : Option Format := none
  solution : Option String := none
  out : Option String := none
  path : Option String := none
  denyUnsolved : Bool := false
deriving DecidableEq

namespace Values

/-- Whether a value was given that excludes another one. -/
def has (v : Values) : Argument → Bool
  | .backend => v.backend.isSome
  | .dimension => false
  | .timeout => v.timeoutMs.isSome
  | .tool => v.tool.isSome
  | .format => v.format.isSome
  | .solution => v.solution.isSome
  | .out => v.out.isSome
  | .path => v.path.isSome

/-- A path, which is not empty. -/
def nonempty (s : String) : Except UsageError String :=
  if s == "" then .error .invalidValue else .ok s

/-- A format by its name. -/
def formatOf : String → Except UsageError Format
  | "text" => .ok .text
  | "json" => .ok .json
  | _ => .error .invalidValue

/-- A backend by its name. -/
def backendOf (s : String) : Except UsageError Backend :=
  match Backend.ofName? s with
  | some b => .ok b
  | none => .error .rejectedValue

/-- A number of milliseconds of 32 bits. -/
def timeoutOf (s : String) : Except UsageError Nat :=
  match Numeral.int? s.toList with
  | some n => if 0 ≤ n ∧ n < Nat.pow 2 32 then .ok n.toNat else .error .rejectedValue
  | none => .error .rejectedValue

/-- Adds a value to those of an argument. -/
def add (v : Values) (a : Argument) (s : String) : Except UsageError Values :=
  match a with
  | .backend => do return { v with backend := some (← backendOf s) }
  | .dimension => .ok { v with dimensions := v.dimensions ++ [s] }
  | .timeout => do return { v with timeoutMs := some (← timeoutOf s) }
  | .tool => do return { v with tool := some (← nonempty s) }
  | .format => do return { v with format := some (← formatOf s) }
  | .solution => do return { v with solution := some (← nonempty s) }
  | .out => do return { v with out := some (← nonempty s) }
  | .path => do return { v with path := some (← nonempty s) }

/-- Takes the value of an argument, which must be there and not be there before. -/
def store (v : Values) (a : Argument) : Option String → Except UsageError Values
  | none => .error .invalidValue
  | some s => if v.has a then .error .repeatedArgument else v.add a s

/-- The choices that take precedence over a manifest. -/
def overrides (v : Values) : Overrides where
  backend := v.backend
  dimensions := v.dimensions
  timeoutMs := v.timeoutMs
  tool := v.tool

end Values

/-- Choices of which the later ones count. -/
def later (before after : Overrides) : Overrides where
  backend := after.backend <|> before.backend
  dimensions := if after.dimensions.isEmpty then before.dimensions else after.dimensions
  timeoutMs := after.timeoutMs <|> before.timeoutMs
  tool := after.tool <|> before.tool

/-- The names of the commands. -/
inductive CommandName where
  | infer | check | emit | lattice
deriving DecidableEq

/-- The command with a given name. -/
def CommandName.ofWord? : String → Option CommandName
  | "infer" => some infer
  | "check" => some check
  | "emit" => some emit
  | "lattice" => some lattice
  | _ => none

/-- Whether a word is a command's name or asks for help. -/
def isCommandWord (word : String) : Bool := (CommandName.ofWord? word).isSome || word == "help"

/-- What may stand in a part of a command line. -/
structure Part where
  arguments : List (String × Argument)
  flags : List (String × Flag)
  takesPath : Bool
  /-- Whether words name commands. -/
  takesCommand : Bool

namespace Part

/-- The options that may stand anywhere. -/
def anywhere : List (String × Argument) :=
  [("backend", .backend), ("dimension", .dimension), ("timeout-ms", .timeout),
    ("gje-tool", .tool)]

/-- The part before the command. -/
def front : Part where
  arguments := anywhere
  flags := [("help", .help), ("version", .version)]
  takesPath := false
  takesCommand := true

/-- The part after the command. -/
def ofCommand : CommandName → Part
  | .infer =>
    { arguments := ("format", .format) :: anywhere
      flags := [("help", .help), ("deny-unsolved", .denyUnsolved)]
      takesPath := true
      takesCommand := false }
  | .check =>
    { arguments := ("format", .format) :: ("solution", .solution) :: anywhere
      flags := [("help", .help)]
      takesPath := true
      takesCommand := false }
  | .emit =>
    { arguments := ("out", .out) :: anywhere
      flags := [("help", .help)]
      takesPath := true
      takesCommand := false }
  | .lattice =>
    { arguments := ("format", .format) :: anywhere
      flags := [("help", .help)]
      takesPath := false
      takesCommand := false }

end Part

/-- A part of a command line that is being read. -/
structure Reader where
  values : Values := {}
  /-- The argument that was named last, with its value if that was given. -/
  pending : Option (Argument × Option String) := none
  /-- Whether two hyphens have ended the options. -/
  onlyWords : Bool := false
  /-- Whether the path was given. -/
  pathTaken : Bool := false

namespace Reader

/-- Takes the value that was held back. -/
def settle (r : Reader) : Except UsageError Values :=
  match r.pending with
  | none => .ok r.values
  | some (a, value) => r.values.store a value

/-- Whether the next word is the value of an option. -/
def awaits (r : Reader) : Bool :=
  match r.pending with
  | some (_, none) => !r.onlyWords
  | _ => false

/-- Names an argument, with its value if that is attached. -/
def argument (r : Reader) (a : Argument) (attached : Option String) : Except UsageError Reader := do
  let values ← r.settle
  match attached with
  | none => return { r with values, pending := some (a, none) }
  | some s => return { r with values := ← values.store a (some s), pending := none }

/-- Gives a flag. -/
def flag (r : Reader) (f : Flag) : Except UsageError Reader := do
  let values ← r.settle
  match f with
  | .help => throw .help
  | .version => throw .version
  | .denyUnsolved =>
    if values.denyUnsolved then throw .repeatedArgument
    return { r with values := { values with denyUnsolved := true }, pending := none }

/-- Reads an option by its long name. -/
def long (part : Part) (r : Reader) (name : String) (attached : Option String) :
    Except UsageError Reader :=
  match part.arguments.lookup name, part.flags.lookup name with
  | some a, _ => r.argument a attached
  | none, some f => if attached.isSome then .error .superfluousValue else r.flag f
  | none, none => .error .unknownArgument

/-- Reads an option by its letter. -/
def short (part : Part) (r : Reader) (letter : Char) : Except UsageError Reader :=
  match part.flags.find? fun f => (f.1 == "help" && letter == 'h') ||
      (f.1 == "version" && letter == 'V') with
  | some (_, f) => r.flag f
  | none => .error .unknownArgument

/-- Reads a word that is no option and no option's value. -/
def word (part : Part) (r : Reader) (s : String) : Except UsageError Reader :=
  if part.takesPath && !r.pathTaken then do
    let values ← r.settle
    return { r with values, pending := some (.path, some s), pathTaken := true }
  else if part.takesCommand && !(r.onlyWords && isCommandWord s) then .error .unknownCommand
  else .error .unknownArgument

/-- The name of a long option and the value attached to it. -/
def splitLong (cs : List Char) : String × Option String :=
  match Text.splitFirst (· == '=') cs with
  | some (name, value) => (String.ofList name, some (String.ofList value))
  | none => (String.ofList cs, none)

/-- Reads one word of the line. -/
def step (part : Part) (r : Reader) (s : String) : Except UsageError Reader :=
  if r.onlyWords then r.word part s
  else
    match s.toList with
    | ['-', '-'] => .ok { r with onlyWords := true }
    | '-' :: '-' :: cs => r.long part (splitLong cs).1 (splitLong cs).2
    | '-' :: letter :: _ => r.short part letter
    | _ =>
      match r.pending with
      | some (a, none) => .ok { r with pending := some (a, some s) }
      | _ => r.word part s

end Reader

/-- What is to be done. -/
inductive Command where
  | infer (path : String) (format : Format) (denyUnsolved : Bool)
  | check (path : String) (solution : Option String) (format : Format)
  | emit (path out : String)
  | lattice (format : Format)
deriving DecidableEq

/-- A command and the choices that take precedence over the manifest. -/
structure Invocation where
  command : Command
  overrides : Overrides
deriving DecidableEq

/-- A value that must be given. -/
def required (value : Option String) : Except UsageError String :=
  match value with
  | some s => .ok s
  | none => .error .missingArgument

/-- The command that values describe. -/
def CommandName.command (name : CommandName) (v : Values) : Except UsageError Command := do
  let format := v.format.getD .text
  match name with
  | .infer => return .infer (← required v.path) format v.denyUnsolved
  | .check => return .check (← required v.path) v.solution format
  | .emit => return .emit (← required v.path) (← required v.out)
  | .lattice => return .lattice format

/-- Reads the part after a command's name. -/
def readCommand (name : CommandName) (words : List String) : Except UsageError Invocation := do
  let r ← words.foldlM (Reader.step (Part.ofCommand name)) {}
  let values ← r.settle
  return ⟨← name.command values, values.overrides⟩

/-- Answers a request for help on a command. -/
def readHelp : List String → UsageError
  | [] => .help
  | [word] => if isCommandWord word then .help else .unknownCommand
  | _ => .unknownCommand

/-- What a line without a command lacks. -/
def withoutCommand (v : Values) : UsageError := if v = {} then .empty else .noCommand

/-- Reads the rest of a line whose front has been read in part. -/
def readFrom (r : Reader) : List String → Except UsageError Invocation
  | [] => do throw (withoutCommand (← r.settle))
  | s :: rest =>
    if r.onlyWords || r.awaits then do readFrom (← r.step .front s) rest
    else
      match CommandName.ofWord? s with
      | some name => do
        let found ← readCommand name rest
        let values ← r.settle
        return { found with overrides := later values.overrides found.overrides }
      | none =>
        if s == "help" then throw (readHelp rest)
        else do readFrom (← r.step .front s) rest

/-- Reads a command line without the program's name. -/
def read (words : List String) : Except UsageError Invocation := readFrom {} words

end CommandLine
end Metrology
