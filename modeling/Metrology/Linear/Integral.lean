import Metrology.Linear.Gcd
import Metrology.Linear.Results
import Metrology.Linear.Row

/-!
# Elimination over the integers

Decides a system over the integers.  The unknowns are written as integer
combinations of the columns of a unimodular matrix.  A row is processed by column
operations that leave at most one free column with a nonzero product with the
row; the row then determines that column's coordinate, or shows that there is no
solution.  Columns whose coordinates are determined stay as they are.
-/

namespace Metrology
namespace Linear
namespace Integral

/-- A system of which some rows have been processed. -/
structure State where
  /-- Columns with their determined coordinates. -/
  fixed : List (Int × List Int)
  /-- Columns whose coordinates are free. -/
  free : List (List Int)

/-- The unit column of one unknown. -/
def unitColumn (width index : Nat) : List Int :=
  (List.range width).map fun i => if i = index then 1 else 0

/-- The state before any row: every unknown is its own coordinate. -/
def initial (width : Nat) : State :=
  ⟨[], (List.range width).map (unitColumn width)⟩

/-- Moves the product of a row with a column into the pivot column. -/
def absorb (row : List Int) (pivot column : List Int) : List Int × List Int :=
  let a := dot row pivot
  let b := dot row column
  if b = 0 then (pivot, column)
  else
    let (g, s, t) := extendedGcd a b
    (combine s pivot t column, combine (-(b.tdiv g)) pivot (a.tdiv g) column)

/-- Absorbs columns one after the other; the others come out with product zero. -/
def sweep (row : List Int) : List Int → List (List Int) → List Int × List (List Int)
  | pivot, [] => (pivot, [])
  | pivot, column :: rest =>
    let (pivot, column) := absorb row pivot column
    let (pivot, rest) := sweep row pivot rest
    (pivot, column :: rest)

/-- The value that the determined coordinates give to a linear form. -/
def fixedValue (row : List Int) (fixed : List (Int × List Int)) : Int :=
  fixed.foldr (fun c value => dot row c.2 * c.1 + value) 0

/-- Processes one row; there is no result if no integers satisfy the rows so far. -/
def step (s : State) (r : Row Int) : Option State :=
  let residual := r.rhs - fixedValue r.coefficients s.fixed
  match s.free with
  | [] => if residual = 0 then some s else none
  | first :: others =>
    let (pivot, others) := sweep r.coefficients first others
    let h := dot r.coefficients pivot
    if h = 0 then
      if residual = 0 then some ⟨s.fixed, pivot :: others⟩ else none
    else if residual.tmod h = 0 then
      some ⟨s.fixed ++ [(residual.tdiv h, pivot)], others⟩
    else none

/-- The unknowns at the determined coordinates, with free coordinates at zero. -/
def State.point (width : Nat) (s : State) : List Int :=
  s.fixed.foldl (fun x c => combine 1 x c.1 c.2) (List.replicate width 0)

/-- The integer solution with free coordinates at zero, without its zeros. -/
def solve (width : Nat) (rows : List (Row Int)) : Results :=
  match rows.foldlM step (initial width) with
  | none => .unsat
  | some s =>
    .sat ((s.point width).zipIdx.filterMap fun e =>
      if e.1 = 0 then none else some (e.2, (e.1 : Rat)))

end Integral
end Linear
end Metrology
