import Metrology.Host.Shell.Arithmetic
import Metrology.Host.Tree

/-!
# Conditions

The expressions that a script can test: texts, numbers and files, with negation,
conjunction and disjunction.

This is a part of the shell of the host in memory, on which no theorem about
sessions rests.
-/

namespace Metrology
namespace Shell
namespace Condition

/-- The integer that a text writes. -/
def integer (s : String) : Except String Int :=
  let isBlank (c : Char) : Bool := c == ' ' || c == '\t' || c == '\n'
  let digits := ((s.toList.dropWhile isBlank).reverse.dropWhile isBlank).reverse
  match Numeral.int? digits with
  | some n => .ok n
  | none => .error ("Illegal number: " ++ s)

/-- The size of a file. -/
def size? (tree : FileTree) (path : String) : Option Nat :=
  match tree.readBytes path with
  | .ok bytes => some bytes.length
  | .error _ => none

/-- The value of a test of one text. -/
def unary? (tree : FileTree) (operator arg : String) : Option Bool :=
  match operator with
  | "-n" => some (arg != "")
  | "-z" => some (arg == "")
  | "-e" | "-r" | "-w" => some (tree.isFile arg || tree.isDirectory arg || arg == "/dev/null")
  | "-f" => some (tree.isFile arg)
  | "-d" => some (tree.isDirectory arg)
  | "-s" => some ((size? tree arg).any (0 < ·))
  | "-x" => some (tree.isDirectory arg || (tree.programAt arg).isOk)
  | "-h" | "-L" | "-b" | "-p" | "-S" | "-u" | "-g" | "-k" | "-t" => some false
  | "-c" => some (arg == "/dev/null")
  | _ => none

/-- The value of a test of two texts. -/
def binary? (operator a b : String) : Option (Except String Bool) :=
  let compare (holds : Int → Int → Bool) : Option (Except String Bool) :=
    some do
      let x ← integer a
      let y ← integer b
      return holds x y
  match operator with
  | "=" => some (.ok (a == b))
  | "!=" => some (.ok (a != b))
  | "<" => some (.ok (a < b))
  | ">" => some (.ok (b < a))
  | "-eq" => compare fun x y => x == y
  | "-ne" => compare fun x y => x != y
  | "-lt" => compare fun x y => x < y
  | "-le" => compare fun x y => x ≤ y
  | "-gt" => compare fun x y => x > y
  | "-ge" => compare fun x y => x ≥ y
  | "-nt" | "-ot" | "-ef" => some (.ok false)
  | _ => none

/-- The value of a condition at the front of some words, and the words after it. -/
abbrev Result := Except String (Bool × List String)

mutual

/-- A disjunction. -/
def either (tree : FileTree) : (fuel : Nat) → List String → Result
  | 0, _ => .error "argument expected"
  | fuel + 1, words => do
    let (a, rest) ← both tree fuel words
    match rest with
    | ["-o"] => return (a, [])
    | "-o" :: rest =>
      let (b, rest) ← either tree fuel rest
      return (a || b, rest)
    | rest => return (a, rest)

/-- A conjunction. -/
def both (tree : FileTree) : (fuel : Nat) → List String → Result
  | 0, _ => .error "argument expected"
  | fuel + 1, words => do
    let (a, rest) ← negation tree fuel words
    match rest with
    | ["-a"] => return (false, [])
    | "-a" :: rest =>
      let (b, rest) ← both tree fuel rest
      return (a && b, rest)
    | rest => return (a, rest)

/-- A condition, perhaps turned around. -/
def negation (tree : FileTree) : (fuel : Nat) → List String → Result
  | 0, _ => .error "argument expected"
  | fuel + 1, words => do
    match words with
    | "!" :: next :: rest =>
      let (a, rest) ← negation tree fuel (next :: rest)
      return (!a, rest)
    | words => primary tree fuel words

/-- A test; one of two texts is recognised before one of one text. -/
def primary (tree : FileTree) : (fuel : Nat) → List String → Result
  | 0, _ => .error "argument expected"
  | fuel + 1, words => do
    match words with
    | [] => throw "argument expected"
    | [a] => return (a != "", [])
    | a :: operator :: rest =>
      match rest with
      | b :: after =>
        match binary? operator a b with
        | some value => return (← value, after)
        | none => single tree fuel a operator rest
      | [] =>
        if (binary? operator "0" "0").isSome then throw (operator ++ ": argument expected")
        else single tree fuel a operator rest

/-- A test of one text, a condition in parentheses or a text by itself. -/
def single (tree : FileTree) : (fuel : Nat) → String → String → List String → Result
  | 0, _, _, _ => .error "argument expected"
  | fuel + 1, a, b, rest => do
    if a == "(" then
      let (value, rest) ← either tree fuel (b :: rest)
      match rest with
      | ")" :: rest => return (value, rest)
      | _ => throw "closing paren expected"
    else
      match unary? tree a b with
      | some value => return (value, rest)
      | none => return (a != "", b :: rest)

end

/-- The value of some words as a condition. -/
def holds (tree : FileTree) (words : List String) : Except String Bool := do
  match words with
  | [] => return false
  | [a] => return a != ""
  | ["!", a] => return a == ""
  | words =>
    let (value, rest) ← either tree (6 * words.length + 6) words
    if rest.isEmpty then return value
    else
      let last := (words.take (words.length - rest.length)).getLastD ""
      throw (last ++ ": unexpected operator")

end Condition
end Shell
end Metrology
