import Metrology.Solve.Error
import Metrology.Text.Blank
import Metrology.Text.Numeral

/-!
# Linear equations

An equation sums integer multiples of numbered unknowns and equates the sum to an
integer.  Its line lists the nonzero coefficients by unknown.
-/

namespace Metrology
namespace Linear

/-- A sum of multiples of unknowns, equated to an integer. -/
structure Equation where
  terms : SortedMap Nat Int := SortedMap.empty
  rhs : Int := 0
deriving DecidableEq

namespace Equation

/-- The equation `0 = 0`. -/
def trivial : Equation := {}

/-- The coefficient of an unknown. -/
def coefficient (e : Equation) (index : Nat) : Int := (e.terms.get? index).getD 0

/-- Adds a multiple of an unknown to the sum. -/
def addTerm (e : Equation) (index : Nat) (coefficient : Int) : Equation :=
  let merged := e.coefficient index + coefficient
  if merged = 0 then { e with terms := e.terms.erase index }
  else { e with terms := e.terms.insert index merged }

/-- Adds to the right-hand side. -/
def addRhs (e : Equation) (value : Int) : Equation := { e with rhs := e.rhs + value }

/-- Whether no unknown is left. -/
def isConstant (e : Equation) : Bool := e.terms.isEmpty

/-- The left-hand side at values of the unknowns. -/
def value (e : Equation) (x : Nat → Int) : Int :=
  e.terms.entries.foldr (fun t value => t.2 * x t.1 + value) 0

/-- Whether values of the unknowns satisfy the equation. -/
def Holds (e : Equation) (x : Nat → Int) : Prop := e.value x = e.rhs

/-- The line of an equation. -/
def render (e : Equation) : String :=
  String.join (e.terms.entries.map fun t => s!"{t.1}:{t.2} ") ++ s!"= {e.rhs}"

instance : ToString Equation := ⟨render⟩

/-- Reads one term and adds it. -/
def readTerm (width : Nat) (line : List Char) (e : Equation) (word : List Char) :
    Except Malformation Equation :=
  let bad := Malformation.badEquation (String.ofList line)
  match Text.splitFirst (· == ':') word with
  | none => .error bad
  | some (index, coefficient) =>
    match Numeral.natOfBits? 64 index, Numeral.intOfBits? 64 coefficient with
    | some index, some coefficient =>
      if width ≤ index then .error (.unknownOutOfRange index (String.ofList line))
      else .ok (e.addTerm index coefficient)
    | _, _ => .error bad

/-- Reads the line of an equation over a number of unknowns. -/
def read (width : Nat) (line : List Char) : Except Malformation Equation :=
  match Text.splitFirst (· == '=') line with
  | none => .error (.badEquation (String.ofList line))
  | some (lhs, rhs) =>
    match Numeral.intOfBits? 64 (Text.trim rhs) with
    | none => .error (.badEquation (String.ofList line))
    | some value => (Text.words lhs).foldlM (readTerm width line) (trivial.addRhs value)

end Equation
end Linear
end Metrology
