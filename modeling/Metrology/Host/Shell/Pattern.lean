import Metrology.Text.Utf8

/-!
# Patterns

Patterns of text: a star for any text, a question mark for any byte, and a bracket
for one of several.  A quoted character stands for itself.

This is a part of the shell of the host in memory, on which no theorem about
sessions rests.
-/

namespace Metrology
namespace Shell

/-- A character of a word and whether it is quoted. -/
abbrev Letter := Char × Bool

/-- The characters of a text, all quoted or all not. -/
def letters (s : String) (quoted : Bool) : List Letter := s.toList.map (·, quoted)

/-- The text of some characters. -/
def textOf (ls : List Letter) : String := String.ofList (ls.map Prod.fst)

namespace Pattern

/-- A step of a pattern. -/
inductive Step where
  | char (c : Char)
  | one
  | many
  /-- A character in, or not in, one of some ranges. -/
  | set (negated : Bool) (ranges : List (Char × Char))
deriving DecidableEq

/-- The ranges of a named class of characters. -/
def classRanges : String → List (Char × Char)
  | "digit" => [('0', '9')]
  | "alpha" => [('a', 'z'), ('A', 'Z')]
  | "upper" => [('A', 'Z')]
  | "lower" => [('a', 'z')]
  | "alnum" => [('a', 'z'), ('A', 'Z'), ('0', '9')]
  | "space" => [(' ', ' '), ('\t', '\r')]
  | "blank" => [(' ', ' '), ('\t', '\t')]
  | "punct" => [('!', '/'), (':', '@'), ('[', '\x60'), ('\x7b', '~')]
  | "xdigit" => [('0', '9'), ('a', 'f'), ('A', 'F')]
  | _ => []

/-- The ranges of a bracket up to its end, which is not its first character, and what follows. -/
def bracketRest : (fuel : Nat) → (start : Bool) → List Letter →
    Option (List (Char × Char) × List Letter)
  | 0, _, _ => none
  | _, _, [] => none
  | fuel + 1, start, (c, quoted) :: rest =>
    if c == ']' && !quoted && !start then some ([], rest)
    else
      match c, rest with
      | '[', (':', false) :: named =>
        let name := named.takeWhile fun l => l.1 != ':'
        match named.drop name.length with
        | _ :: (']', false) :: rest => do
          let (ranges, rest) ← bracketRest fuel false rest
          return (classRanges (textOf name) ++ ranges, rest)
        | _ => do
          let (ranges, rest) ← bracketRest fuel false rest
          return (('[', '[') :: ranges, rest)
      | low, ('-', false) :: (high, highQuoted) :: rest' =>
        if high == ']' && !highQuoted then do
          let (ranges, rest) ← bracketRest fuel false rest
          return ((low, low) :: ranges, rest)
        else do
          let (ranges, rest) ← bracketRest fuel false rest'
          return ((low, high) :: ranges, rest)
      | c, rest => do
        let (ranges, rest) ← bracketRest fuel false rest
        return ((c, c) :: ranges, rest)

/-- The steps of a pattern. -/
def steps : (fuel : Nat) → List Letter → List Step
  | 0, _ => []
  | _, [] => []
  | fuel + 1, (c, quoted) :: rest =>
    if quoted then .char c :: steps fuel rest
    else
      match c with
      | '*' => .many :: steps fuel rest
      | '?' => .one :: steps fuel rest
      | '[' =>
        let negated := rest.head? == some ('!', false) || rest.head? == some ('^', false)
        match bracketRest rest.length true (if negated then rest.tail else rest) with
        | some (ranges, rest) => .set negated ranges :: steps fuel rest
        | none => .char '[' :: steps fuel rest
      | '\\' =>
        match rest with
        | (d, _) :: rest => .char d :: steps fuel rest
        | [] => [.char '\\']
      | c => .char c :: steps fuel rest

/-- Whether a step takes a character. -/
def Step.takes (s : Step) (c : Char) : Bool :=
  match s with
  | .char d => c == d
  | .one => true
  | .many => true
  | .set negated ranges => negated != ranges.any fun r => r.1 ≤ c && c ≤ r.2

/-- Whether steps take a whole text. -/
def matchesSteps : List Step → List Char → Bool
  | [], cs => cs.isEmpty
  | .many :: ps, [] => matchesSteps ps []
  | .many :: ps, c :: cs => matchesSteps ps (c :: cs) || matchesSteps (.many :: ps) cs
  | _ :: _, [] => false
  | p :: ps, c :: cs => p.takes c && matchesSteps ps cs
termination_by ps cs => ps.length + cs.length

/-- The bytes of a text, each as a character. -/
def byteChars (cs : List Char) : List Char :=
  (Utf8.encode (String.ofList cs)).map fun b => Char.ofNat b.toNat

/-- The text of bytes that are given as characters. -/
def ofByteChars (cs : List Char) : String :=
  Utf8.decodeLossy (cs.map fun c => c.toNat.toUInt8)

/-- The steps of a pattern on bytes. -/
def byteSteps (pattern : List Letter) : List Step :=
  let bytes := pattern.flatMap fun l => (byteChars [l.1]).map (·, l.2)
  steps bytes.length bytes

/-- Whether a pattern matches a whole text. -/
def isMatch (pattern : List Letter) (text : String) : Bool :=
  matchesSteps (byteSteps pattern) (byteChars text.toList)

/-- A text without the shortest or longest part at one end that a pattern matches. -/
def trim (atEnd longest : Bool) (pattern : List Letter) (text : String) : String :=
  let bytes := byteChars text.toList
  let lengths := List.range (bytes.length + 1)
  let cut (n : Nat) : List Char × List Char :=
    if atEnd then (bytes.drop (bytes.length - n), bytes.take (bytes.length - n))
    else (bytes.take n, bytes.drop n)
  let order := if longest then lengths.reverse else lengths
  match order.find? fun n => matchesSteps (byteSteps pattern) (cut n).1 with
  | some n => ofByteChars (cut n).2
  | none => text

end Pattern
end Shell
end Metrology
