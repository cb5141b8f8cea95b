import Metrology.Host.Shell.Condition
import Metrology.Host.Shell.Fields
import Metrology.Host.Shell.Format
import Metrology.Host.Shell.Reader
import Metrology.Host.Shell.Signal
import Metrology.Host.Shell.State

/-!
# Built-in commands

The commands that a shell carries out itself and that run no others.  Each one
takes its arguments and leaves its status in the shell.

This is a part of the shell of the host in memory, on which no theorem about
sessions rests.
-/

namespace Metrology
namespace Shell
namespace Builtin

open Routine

/-- Writes a complaint of a command. -/
def complainAs (command text : String) : Routine Unit := complain (command ++ ": " ++ text)

/-- Fails with a complaint of a command. -/
def failAs (command text : String) (status : Nat) : Routine Unit := do
  complainAs command text
  finish status

/-- Ends the shell with a complaint of a command. -/
def abandonAs (command text : String) : Routine Unit := abandon (command ++ ": " ++ text)

/-- Reads a natural number of 31 bits, or ends the shell. -/
def natural (command text : String) (use : Nat → Routine Unit) : Routine Unit :=
  match (Numeral.digits? text.toList).filter (· < Nat.pow 2 31) with
  | some n => use n
  | none => abandonAs command ("Illegal number: " ++ text)

/-- Writes arguments. -/
def echo (args : List String) : Routine Unit := do
  write 1 (Format.echo args)
  finish 0

/-- Fills a format. -/
def printf : List String → Routine Unit
  | [] => failAs "printf" "usage: printf format [arg ...]" 2
  | "--" :: format :: args | format :: args => do
    let printed := Format.print format args
    printed.complaints.forM (complainAs "printf")
    write 1 printed.bytes
    finish printed.status

/-- Tests a condition. -/
def test (command : String) (args : List String) : Routine Unit := do
  match Condition.holds (← get).tree args with
  | .ok true => finish 0
  | .ok false => finish 1
  | .error text => failAs command text 2

/-- Tests a condition in brackets. -/
def bracket (args : List String) : Routine Unit :=
  if args.getLast? == some "]" then test "[" args.dropLast else failAs "[" "missing ]" 2

/-- The next line of some input with the characters that backslashes quote, whether it has an
end, and the input after it. -/
def nextLine (raw : Bool) : (fuel : Nat) → List Char → List Letter × Bool × List Char
  | 0, cs => ([], false, cs)
  | _, [] => ([], false, [])
  | _, '\n' :: rest => ([], true, rest)
  | fuel + 1, c :: rest =>
    if c == '\\' && !raw then
      match rest with
      | [] => ([], false, [])
      | '\n' :: rest => nextLine raw fuel rest
      | d :: rest =>
        let (line, ended, left) := nextLine raw fuel rest
        ((d, true) :: line, ended, left)
    else
      let (line, ended, left) := nextLine raw fuel rest
      ((c, false) :: line, ended, left)

/-- Reads a line into variables. -/
def read (args : List String) : Routine Unit := do
  let raw := args.contains "-r"
  let names := args.filter fun a => !a.startsWith "-"
  if names.isEmpty then failAs "read" "arg count" 2
  else
    let s ← get
    let cs := (Utf8.decodeLossy s.input).toList
    let (line, ended, left) := nextLine raw cs.length cs
    set { s with input := Utf8.encode (String.ofList left) }
    let values := Fields.assign (← separators).toList names.length line
    (names.zip values).forM fun v => assign v.1 v.2
    finish (if ended then 0 else 1)

/-- The choices of a shell that letters turn on or off. -/
def choose (on : Bool) (letters : List Char) : Routine Unit :=
  letters.forM fun c =>
    modify fun s =>
      match c with
      | 'e' => { s with strict := on }
      | 'u' => { s with demanding := on }
      | 'x' => { s with tracing := on }
      | _ => s

/-- Sets choices and arguments. -/
def setArguments : List String → Routine Unit
  | [] => finish 0
  | arg :: rest => do
    match arg.toList with
    | '-' :: '-' :: [] =>
      modify fun s => { s with arguments := rest }
      finish 0
    | '-' :: 'o' :: [] | '+' :: 'o' :: [] =>
      let on := arg.startsWith "-"
      match rest with
      | "errexit" :: rest =>
        choose on ['e']
        setArguments rest
      | "nounset" :: rest =>
        choose on ['u']
        setArguments rest
      | "xtrace" :: rest =>
        choose on ['x']
        setArguments rest
      | _ :: rest => setArguments rest
      | [] => finish 0
    | '-' :: c :: letters =>
      choose true (c :: letters)
      setArguments rest
    | '+' :: c :: letters =>
      choose false (c :: letters)
      setArguments rest
    | _ =>
      modify fun s => { s with arguments := arg :: rest }
      finish 0

/-- Drops the first arguments. -/
def shift (args : List String) : Routine Unit :=
  natural "shift" (args.headD "1") fun n => do
    let s ← get
    if n ≤ s.arguments.length then
      set { s with arguments := s.arguments.drop n, status := 0 }
    else abandonAs "shift" "can't shift that many"

/-- Removes variables or functions. -/
def unset (args : List String) : Routine Unit := do
  let functions := args.contains "-f"
  (args.filter fun a => !a.startsWith "-").forM fun name =>
    modify fun s =>
      if functions then { s with functions := s.functions.filter fun f => f.1 != name }
      else { s with values := s.values.erase name }
  finish 0

/-- The name and the value of an argument that assigns one. -/
def assignment? (arg : String) : Option (String × String) :=
  let name := arg.toList.takeWhile (· != '=')
  match arg.toList.drop name.length with
  | [] => none
  | _ :: value => some (String.ofList name, String.ofList value)

/-- Carries out the assignments among arguments. -/
def assignAll (args : List String) : Routine Unit := do
  args.forM fun arg =>
    match assignment? arg with
    | some (name, value) => assign name value
    | none => pure ()
  finish 0

/-- Gives variables, perhaps with new values, to programs. -/
def exportAll (args : List String) : Routine Unit := do
  let names := args.map fun arg => (assignment? arg).elim arg Prod.fst
  modify fun s => { s with exported := names ++ s.exported }
  assignAll args

/-- Lets variables keep their values, perhaps new ones. -/
def fixAll (args : List String) : Routine Unit := do
  assignAll args
  let names := args.map fun arg => (assignment? arg).elim arg Prod.fst
  modify fun s => { s with fixed := names ++ s.fixed }

/-- Gives a function variables of its own. -/
def makeLocal (args : List String) : Routine Unit := do
  args.forM fun arg => do
    let name := (assignment? arg).elim arg Prod.fst
    let old ← value? name
    modify fun s => { s with hidden := (name, old) :: s.hidden }
  assignAll args

/-- Moves to another directory. -/
def changeDirectory (args : List String) : Routine Unit := do
  let target := args.headD "/"
  let s ← get
  match s.tree.locate target with
  | .ok names =>
    if s.tree.isDirectory target then
      set { s with tree := { s.tree with workingDirectory := names }, status := 0 }
    else failAs "cd" ("can't cd to " ++ target) 2
  | .error _ => failAs "cd" ("can't cd to " ++ target) 2

/-- Writes the working directory. -/
def writeDirectory : Routine Unit := do
  write 1 (Utf8.encode ("/" ++ "/".intercalate (← get).tree.workingDirectory ++ "\n"))
  finish 0

/-- Ends the shell. -/
def exit : List String → Routine Unit
  | [] => do endWith (.code (← get).status)
  | text :: _ => natural "exit" text fun n => endWith (.code (n % 256))

/-- Ends a function. -/
def leaveFunction (args : List String) : Routine Unit := do
  let leave (n : Nat) : Routine Unit := modify fun s => { s with status := n, flow := .returning }
  match args with
  | [] => leave (← get).status
  | text :: _ => natural "return" text fun n => leave n

/-- Ends loops, or goes on with the next turn. -/
def leave (again : Bool) (args : List String) : Routine Unit :=
  natural (if again then "continue" else "break") (args.headD "1") fun n => do
    let s ← get
    let n := min n s.loops
    if n = 0 then finish 0 else set { s with flow := .leaving n again, status := 0 }

/-- Lets a signal arrive at the shell. -/
def receive (n : Nat) : Routine Unit := do
  let s ← get
  match if n = 9 then none else s.traps.lookup (Signal.key n) with
  | some action => set { s with pending := s.pending ++ [action], status := 0 }
  | none =>
    if Signal.ends n then endWith (.signal n) else finish 0

/-- Sends a signal to processes, of which only the shell itself exists. -/
def send (n : Nat) (processes : List String) : Routine Unit := do
  if processes.isEmpty then
    failAs "kill" ("Usage: kill [-s sigspec | -signum | -sigspec] [pid | job]... or\n" ++
      "kill -l [exitstatus]") 2
  else
    processes.forM fun p => do
      match Numeral.digits? p.toList with
      | none => failAs "kill" ("Illegal number: " ++ p) 2
      | some process =>
        let s ← get
        if process = s.process then receive n
        else if s.parents.contains process then
          let struck := if Signal.ends n then some (process, n) else s.struck
          set { s with status := 0, struck }
        else failAs "kill" "No such process\n" 1

/-- Writes the names of signals, or of the one that a status stands for. -/
def listSignals : List String → Routine Unit
  | [] => do
    ((List.range (Signal.last + 1)).map Signal.name).forM fun n =>
      write 1 (Utf8.encode (n ++ "\n"))
    finish 0
  | text :: _ => do
    match Numeral.digits? text.toList with
    | none => failAs "kill" ("Illegal number: " ++ text) 2
    | some n =>
      write 1 (Utf8.encode (Signal.name (if 128 < n then n - 128 else n) ++ "\n"))
      finish 0

/-- Sends the signal of a name to processes. -/
def sendNamed (signal : String) (processes : List String) : Routine Unit :=
  match Signal.number? signal with
  | some n => send n processes
  | none => failAs "kill" ("invalid signal number or name: " ++ signal) 2

/-- Sends a signal given before the processes. -/
def kill : List String → Routine Unit
  | [] => send 15 []
  | "--" :: processes => send 15 processes
  | "-l" :: args => listSignals args
  | "-s" :: signal :: processes => sendNamed signal processes
  | arg :: processes =>
    match arg.toList with
    | '-' :: signal =>
      match Signal.number? (String.ofList signal), signal with
      | some n, _ => send n processes
      | none, 's' :: named => sendNamed (String.ofList named) processes
      | none, signal => failAs "kill" ("Illegal option -" ++ String.ofList (signal.take 1)) 2
    | _ => send 15 (arg :: processes)

/-- Sets what to do at signals. -/
def trap : List String → Routine Unit
  | [] => finish 0
  | action :: signals => do
    let alone := signals.isEmpty
    (if alone then [action] else signals).forM fun signal =>
      match Signal.number? signal with
      | none => do
        write 2 (Utf8.encode s!"trap: {signal}: bad trap\n")
        finish 1
      | some n =>
        modify fun s =>
          let others := s.traps.filter fun t => t.1 != Signal.key n
          { s with
            status := 0
            traps := if alone || action == "-" then others
              else (Signal.key n, action) :: others }

/-- The commands whose failure ends the shell and whose assignments last. -/
def special : List String :=
  [":", ".", "break", "continue", "eval", "exec", "exit", "export", "readonly", "return", "set",
    "shift", "times", "trap", "unset"]

/-- The commands that run others. -/
def running : List String := ["eval", "exec", "command", "type", "."]

/-- The built-in command of a name. -/
def ofName? : String → Option (List String → Routine Unit)
  | ":" | "true" | "wait" | "jobs" | "times" | "hash" | "ulimit" | "alias" | "unalias" =>
    some fun _ => finish 0
  | "false" => some fun _ => finish 1
  | "echo" => some echo
  | "printf" => some printf
  | "test" => some (test "test")
  | "[" => some bracket
  | "read" => some read
  | "set" => some setArguments
  | "shift" => some shift
  | "unset" => some unset
  | "export" => some exportAll
  | "readonly" => some fixAll
  | "local" => some makeLocal
  | "cd" => some changeDirectory
  | "pwd" => some fun _ => writeDirectory
  | "umask" => some fun args => do
    if args.isEmpty then write 1 (Utf8.encode "0022\n")
    finish 0
  | "exit" => some exit
  | "return" => some leaveFunction
  | "break" => some (leave false)
  | "continue" => some (leave true)
  | "kill" => some kill
  | "trap" => some trap
  | _ => none

end Builtin
end Shell
end Metrology
