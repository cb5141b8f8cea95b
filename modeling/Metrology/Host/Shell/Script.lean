/-!
# Shell scripts

The commands of a script and the words they are made of.  A word is a list of
parts, most of which are replaced by values when the command runs; what is quoted
stays one piece whatever it holds.

This is a part of the shell of the host in memory, on which no theorem about
sessions rests.
-/

namespace Metrology
namespace Shell

/-- What stands in for a parameter, by the sign that asks for it. -/
inductive Fallback where
  /-- The word, if the parameter has no value. -/
  | value
  /-- The word, which becomes the value as well. -/
  | assign
  /-- The word as a complaint. -/
  | complaint
  /-- The word, if the parameter has a value. -/
  | alternative
deriving DecidableEq

/-- How a redirection opens what its word names. -/
inductive Opening where
  | read
  | write
  | append
  /-- The word numbers a stream. -/
  | duplicate
  /-- The word is the text to read. -/
  | document
deriving DecidableEq

mutual

/-- A part of a word. -/
inductive Part where
  | text (s : String) (quoted : Bool)
  | parameter (name : String) (use : Use) (quoted : Bool)
  /-- The output of commands. -/
  | output (commands : List Command) (quoted : Bool)
  /-- The value of an arithmetic expression. -/
  | arithmetic (expression : List Part) (quoted : Bool)

/-- What is asked of a parameter. -/
inductive Use where
  | plain
  | length
  /-- A fallback, perhaps also for an empty value. -/
  | fallback (kind : Fallback) (emptyToo : Bool) (word : List Part)
  /-- The value without a part that a pattern matches. -/
  | trimmed (atEnd longest : Bool) (pattern : List Part)
  | bad

/-- A redirection of a numbered stream. -/
inductive Redirection where
  | mk (stream : Nat) (opening : Opening) (word : List Part)

/-- A command. -/
inductive Command where
  | simple (line : Nat) (assignments : List (String × List Part)) (words : List (List Part))
      (redirections : List Redirection)
  | redirected (command : Command) (redirections : List Redirection)
  | sequence (commands : List Command)
  | subshell (body : Command)
  | pipeline (commands : List Command)
  | negated (command : Command)
  /-- Runs the second command if the first one succeeds, or if it fails. -/
  | chain (ifSuccess : Bool) (first second : Command)
  | background (command : Command)
  | branch (condition body : Command) (otherwise : Option Command)
  /-- Repeats the body while the condition succeeds, or while it fails. -/
  | loop (whileSuccess : Bool) (condition body : Command)
  /-- Runs the body for each field of some words, or for each argument. -/
  | each (name : String) (words : Option (List (List Part))) (body : Command)
  /-- Runs the first body one of whose patterns matches a word. -/
  | choice (subject : List Part) (cases : List (List (List Part) × Command))
  | define (name : String) (body : Command)

end

/-- Text with places for values. -/
abbrev Word := List Part

instance : Inhabited Part := ⟨.text "" false⟩

instance : Inhabited Command := ⟨.sequence []⟩

/-- Why a script cannot be read, and at which line. -/
structure ReadError where
  line : Nat
  text : String
deriving DecidableEq

/-- The commands of a script, line by line, up to the end or to what cannot be read. -/
structure Script where
  lines : List Command
  error : Option ReadError

end Shell
end Metrology
