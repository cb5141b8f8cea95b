import Metrology.Text.Numeral

/-!
# Signals

Signals by name and number, and what they do to a process that does not care for
them.

This is a part of the shell of the host in memory, on which no theorem about
sessions rests.
-/

namespace Metrology
namespace Shell
namespace Signal

/-- The names of signals in the order of their numbers, from one on. -/
def names : List String :=
  ["HUP", "INT", "QUIT", "ILL", "TRAP", "ABRT", "BUS", "FPE", "KILL", "USR1", "SEGV", "USR2",
    "PIPE", "ALRM", "TERM", "STKFLT", "CHLD", "CONT", "STOP", "TSTP", "TTIN", "TTOU", "URG",
    "XCPU", "XFSZ", "VTALRM", "PROF", "WINCH", "IO", "PWR", "SYS"]

/-- The largest number of a signal. -/
def last : Nat := 64

/-- The number of a signal given by number or by name. -/
def number? (text : String) : Option Nat :=
  match Numeral.digits? text.toList with
  | some n => if n ≤ last then some n else none
  | none =>
    if text == "EXIT" then some 0
    else (names.idxOf? (String.ofList (text.toList.map Char.toUpper))).map (· + 1)

/-- The name of a signal, or its number if it has none. -/
def name (n : Nat) : String :=
  if n = 0 then "0" else names.getD (n - 1) (toString n)

/-- What traps call a signal. -/
def key (n : Nat) : String := toString n

/-- The signals that a process does not notice. -/
def ignored : List Nat := [0, 17, 18, 23, 28]

/-- The signals that stop a process until it is told to go on. -/
def stopping : List Nat := [19, 20, 21, 22]

/-- Whether a signal ends a process. -/
def ends (n : Nat) : Bool := !ignored.contains n && !stopping.contains n

/-- What a shell says of a program that a signal ended. -/
def description : Nat → String
  | 1 => "Hangup"
  | 3 => "Quit"
  | 4 => "Illegal instruction"
  | 5 => "Trace/breakpoint trap"
  | 6 => "Aborted"
  | 7 => "Bus error"
  | 8 => "Floating point exception"
  | 9 => "Killed"
  | 10 => "User defined signal 1"
  | 11 => "Segmentation fault"
  | 12 => "User defined signal 2"
  | 14 => "Alarm clock"
  | 15 => "Terminated"
  | 16 => "Stack fault"
  | 24 => "CPU time limit exceeded"
  | 25 => "File size limit exceeded"
  | 26 => "Virtual timer expired"
  | 27 => "Profiling timer expired"
  | 29 => "I/O possible"
  | 30 => "Power failure"
  | 31 => "Bad system call"
  | _ => ""

end Signal
end Shell
end Metrology
