import Metrology.Linear.Integral
import Metrology.Linear.Rational

/-!
# Eliminators

An eliminator reads the text of a system and answers with the text of its
results.  The one that is built in decides systems over the integers: the
rational solution serves where it is integral, and otherwise the integral
elimination decides.
-/

namespace Metrology
namespace Linear

/-- Whether an answer has a value that is not an integer. -/
def Results.isFractional : Results → Bool
  | .unsat => false
  | .sat values => values.any fun v => v.2.den != 1

/-- Decides rows over the integers. -/
def decideRows (width : Nat) (rows : List (Row Int)) : Results :=
  let rational := Rational.solve width rows
  if rational.isFractional then Integral.solve width rows else rational

/-- Decides a system over the integers. -/
def ReadSystem.decide (s : ReadSystem) : Results := decideRows s.width s.rows

/-- Something that solves systems given as text. -/
structure Eliminator where
  name : String
  eliminate : String → Except SolveError String

/-- Reads a system with its failure as a failed solve. -/
def readSystem (text : String) : Except SolveError ReadSystem :=
  match ReadSystem.read text with
  | .ok system => .ok system
  | .error cause => .error (.malformed cause)

/-- Reads results with their failure as a failed solve. -/
def readResults (text : String) : Except SolveError Results :=
  match Results.read text with
  | .ok results => .ok results
  | .error cause => .error (.malformed cause)

/-- The built-in eliminator. -/
def Eliminator.builtin : Eliminator where
  name := "in-process"
  eliminate text := (readSystem text).map fun system => system.decide.render

end Linear
end Metrology
