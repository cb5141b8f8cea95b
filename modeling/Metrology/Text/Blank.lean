/-!
# Blanks, words and lines

Text is cut the way the Unicode property `White_Space` says: blanks are trimmed
from both ends of a line, words are the runs between blanks, and a line ends at
a line feed or at a carriage return followed by one.
-/

namespace Metrology
namespace Text

/-- The characters with the Unicode property `White_Space`. -/
def isBlank (c : Char) : Bool :=
  let n := c.toNat
  (0x09 ≤ n && n ≤ 0x0D) || n == 0x20 || n == 0x85 || n == 0xA0 || n == 0x1680 ||
    (0x2000 ≤ n && n ≤ 0x200A) || n == 0x2028 || n == 0x2029 || n == 0x202F ||
    n == 0x205F || n == 0x3000

/-- The text without the blanks at its end. -/
def trimEnd (cs : List Char) : List Char := (cs.reverse.dropWhile isBlank).reverse

/-- The text without the blanks at its two ends. -/
def trim (cs : List Char) : List Char := trimEnd (cs.dropWhile isBlank)

/-- The part before the first character that satisfies `p` and the part after it. -/
def splitFirst (p : Char → Bool) (cs : List Char) : Option (List Char × List Char) :=
  match cs.dropWhile (fun c => !p c) with
  | [] => none
  | _ :: after => some (cs.takeWhile (fun c => !p c), after)

/-- The pieces between the characters that satisfy `p`, empty ones included. -/
def pieces (p : Char → Bool) : List Char → List (List Char)
  | [] => [[]]
  | c :: rest =>
    if p c then [] :: pieces p rest
    else
      match pieces p rest with
      | [] => [[c]]
      | piece :: more => (c :: piece) :: more

/-- The maximal runs of characters that are not blank. -/
def words (cs : List Char) : List (List Char) :=
  (pieces isBlank cs).filter (fun w => !w.isEmpty)

/-- Removes a carriage return that ends the line. -/
def dropReturn (line : List Char) : List Char :=
  match line.reverse with
  | '\r' :: before => before.reverse
  | _ => line

/-- The lines of a pieces list: all but the last piece were ended by a line feed. -/
def linesOfPieces : List (List Char) → List (List Char)
  | [] => []
  | [last] => if last.isEmpty then [] else [last]
  | line :: more => dropReturn line :: linesOfPieces more

/-- The lines of a text without their ends; nothing follows the last line end. -/
def lines (cs : List Char) : List (List Char) := linesOfPieces (pieces (· == '\n') cs)

/-- The trimmed lines that hold more than blanks. -/
def filledLines (cs : List Char) : List (List Char) :=
  ((lines cs).map trim).filter (fun l => !l.isEmpty)

end Text
end Metrology
