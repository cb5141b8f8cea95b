import Metrology.Host.Shell.State

/-!
# Streams

How redirections connect the streams of a shell with files and with one another.
The input is kept as the bytes that are left of it; every other stream is written
to a sink.

This is a part of the shell of the host in memory, on which no theorem about
sessions rests.
-/

namespace Metrology
namespace Shell

open Routine

/-- What a script calls a file that it cannot open or make. -/
def openingFault (e : FileError) (missing : String) : String :=
  match e with
  | .notFound | .notDirectory => missing
  | e => e.reason

/-- The stream that a path under the devices stands for. -/
def deviceStream? : String → Option Nat
  | "/dev/stdout" | "/dev/fd/1" => some 1
  | "/dev/stderr" | "/dev/fd/2" => some 2
  | _ => none

/-- Sends a stream to a sink. -/
def connect (stream : Nat) (sink : Sink) : Routine Unit :=
  modify fun s => { s with sinks := (stream, sink) :: s.sinks.filter fun e => e.1 != stream }

/-- Makes one stream another name for a second one, or closes it. -/
def duplicate (stream : Nat) (target : String) : Routine Bool := do
  let s ← get
  if target == "-" then
    set { s with
      sinks := s.sinks.filter fun e => e.1 != stream
      input := if stream = 0 then [] else s.input }
    return true
  match Numeral.digits? target.toList with
  | none =>
    complain "Syntax error: Bad fd number"
    endWith (.code 2)
    return false
  | some n =>
    if stream = 0 || n = 0 then return true
    match s.sinks.lookup n with
    | some sink =>
      connect stream sink
      return true
    | none =>
      complain (target ++ ": Bad file descriptor")
      return false

/-- Opens a file for a stream. -/
def openFor (stream : Nat) (opening : Opening) (target : String) : Routine Bool := do
  let s ← get
  match opening with
  | .duplicate => duplicate stream target
  | .document =>
    set { s with input := Utf8.encode target }
    return true
  | .read =>
    if target == "/dev/stdin" then return true
    match s.tree.readBytes target with
    | .ok bytes =>
      set { s with input := bytes }
      return true
    | .error .isDirectory =>
      set { s with input := [] }
      return true
    | .error e =>
      complain ("cannot open " ++ target ++ ": " ++ openingFault e "No such file")
      return false
  | .write | .append =>
    match deviceStream? target with
    | some n => duplicate stream (toString n)
    | none =>
      match s.tree.locate target, s.tree.writeBytes target (opening = .append) [] with
      | .ok names, .ok tree =>
        set { s with tree }
        connect stream (.file ("/" ++ "/".intercalate names))
        return true
      | _, .error e | .error e, _ =>
        complain ("cannot create " ++ target ++ ": " ++ openingFault e "Directory nonexistent")
        return false

/-- Whether a redirection changes the input. -/
def Redirection.isInput : Redirection → Bool
  | .mk stream _ _ => stream == 0

end Shell
end Metrology
