import Metrology.Solve.Error
import Metrology.Text.Blank
import Metrology.Text.Numeral

/-!
# Results of an elimination

An elimination answers that a system has no solution, or gives exact values of
some unknowns; the others are zero.
-/

namespace Metrology
namespace Linear

/-- The answer of an elimination. -/
inductive Results where
  | unsat
  | sat (values : List (Nat × Rat))
deriving DecidableEq

namespace Results

/-- The text of an answer: the verdict, then one line for each value. -/
def render : Results → String
  | unsat => "unsat\n"
  | sat values =>
    "sat\n" ++ String.join (values.map fun v =>
      let value := Numeral.renderRational v.2
      s!"{v.1} {value}\n")

/-- Reads the line of a value. -/
def readValue (line : List Char) : Except Malformation (Nat × Rat) :=
  match Text.splitFirst Text.isBlank line with
  | none => .error (.badResult (String.ofList line))
  | some (index, value) =>
    match Numeral.natOfBits? 64 index, Numeral.rational? (Text.trim value) with
    | some index, some value => .ok (index, value)
    | _, _ => .error (.badResult (String.ofList line))

/-- Reads the text of an answer; nothing after a negative verdict counts. -/
def read (text : String) : Except Malformation Results :=
  match Text.filledLines text.toList with
  | [] => .error .emptyResults
  | verdict :: lines =>
    if verdict = "unsat".toList then .ok unsat
    else if verdict = "sat".toList then (lines.mapM readValue).map sat
    else .error (.badVerdict (String.ofList verdict))

end Results
end Linear
end Metrology
