import Metrology.Host.Shell.Pattern

/-!
# Fields

When a word has been expanded, the values that were not quoted are split into
fields at the separators.  Blank separators divide fields in any number; each
other one ends a field, even an empty one.

This is a part of the shell of the host in memory, on which no theorem about
sessions rests.
-/

namespace Metrology
namespace Shell

/-- A piece of an expanded word. -/
inductive Atom where
  | char (c : Char) (quoted : Bool)
  /-- A character of a value that may divide fields. -/
  | loose (c : Char)
  /-- There is a field here, even if it is empty. -/
  | mark
  /-- One field ends and another one begins. -/
  | divide
deriving DecidableEq

/-- The pieces of a text. -/
def atoms (s : String) (quoted : Bool) : List Atom := s.toList.map fun c => .char c quoted

/-- The pieces of a value. -/
def valueAtoms (s : String) (quoted : Bool) : List Atom :=
  if quoted then atoms s true else s.toList.map .loose

namespace Fields

/-- Whether a character is blank. -/
def isBlank (c : Char) : Bool := c == ' ' || c == '\t' || c == '\n'

/-- The pieces of a word as one text, whatever divides it. -/
def whole (as : List Atom) : List Letter :=
  as.filterMap fun
    | .char c quoted => some (c, quoted)
    | .loose c => some (c, false)
    | .mark => none
    | .divide => some (' ', true)

/-- Splits pieces at separators, given the field that was begun, the last character first, and
whether a blank ended the field before it. -/
def splitAt (separators : List Char) : Option (List Letter) → Bool → List Atom →
    List (List Letter)
  | current, _, [] => (current.map List.reverse).toList
  | current, _, .char c quoted :: rest =>
    splitAt separators (some ((c, quoted) :: current.getD [])) false rest
  | current, _, .mark :: rest => splitAt separators (some (current.getD [])) false rest
  | current, _, .divide :: rest =>
    (current.map List.reverse).toList ++ splitAt separators none false rest
  | current, blank, .loose c :: rest =>
    if !separators.contains c then
      splitAt separators (some ((c, false) :: current.getD [])) false rest
    else if isBlank c then
      match current with
      | some field => field.reverse :: splitAt separators none true rest
      | none => splitAt separators none blank rest
    else
      match current, blank with
      | none, true => splitAt separators none false rest
      | current, _ => (current.getD []).reverse :: splitAt separators none false rest

/-- The fields of a word. -/
def split (separators : String) (as : List Atom) : List (List Letter) :=
  splitAt separators.toList none false as

/-- Drops blank separators in front. -/
def dropBlanks (separators : List Char) (ls : List Letter) : List Letter :=
  ls.dropWhile fun l => !l.2 && isBlank l.1 && separators.contains l.1

/-- The values of `count` names from one line: a field each, and what is left for the last. -/
def assign (separators : List Char) : (count : Nat) → List Letter → List String
  | 0, _ => []
  | 1, ls =>
    [textOf (dropBlanks separators (dropBlanks separators ls).reverse).reverse]
  | count + 2, ls =>
    let divides (l : Letter) : Bool := !l.2 && separators.contains l.1
    let ls := dropBlanks separators ls
    let field := ls.takeWhile fun l => !divides l
    let after := dropBlanks separators (ls.drop field.length)
    let after := if after.head?.any divides then dropBlanks separators after.tail else after
    textOf field :: assign separators (count + 1) after

end Fields
end Shell
end Metrology
