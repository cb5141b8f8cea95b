import Metrology.Linear.Results
import Metrology.Linear.Row

/-!
# Elimination over the rationals

Gauss-Jordan elimination column by column.  A column with a nonzero entry in a
row that is not yet solved makes that row the solved row of its unknown; the
unknown is then cleared from all other rows.  What is left has no coefficients,
so the system is solvable exactly if nothing is left on the right-hand sides;
unknowns without a solved row are free and taken as zero.
-/

namespace Metrology
namespace Linear
namespace Rational

/-- An elimination in progress. -/
structure State where
  /-- The solved rows with their unknowns, by increasing unknown. -/
  solved : List (Nat × Row Rat)
  /-- The rows without a solved unknown. -/
  pending : List (Row Rat)

/-- The row divided by its entry in a column. -/
def normalize (column : Nat) (r : Row Rat) : Row Rat :=
  let p := r.entry column
  r.map (· / p)

/-- The row with an unknown cleared by means of that unknown's solved row. -/
def clear (column : Nat) (solved r : Row Rat) : Row Rat :=
  let factor := r.entry column
  ⟨List.zipWith (fun x y => x - factor * y) r.coefficients solved.coefficients,
    r.rhs - factor * solved.rhs⟩

/-- Solves for one unknown, if a pending row mentions it. -/
def step (s : State) (column : Nat) : State :=
  let (before, rest) := s.pending.span fun r => r.entry column == 0
  match rest with
  | [] => s
  | found :: after =>
    let solved := normalize column found
    ⟨s.solved.map (fun e => (e.1, clear column solved e.2)) ++ [(column, solved)],
      (before ++ after).map (clear column solved)⟩

/-- The elimination of all unknowns. -/
def eliminate (width : Nat) (rows : List (Row Rat)) : State :=
  (List.range width).foldl step ⟨[], rows⟩

/-- The rational solution with free unknowns at zero. -/
def solve (width : Nat) (rows : List (Row Int)) : Results :=
  let s := eliminate width (rows.map (Row.map fun (n : Int) => (n : Rat)))
  if s.pending.any fun r => r.rhs != 0 then .unsat
  else .sat (s.solved.map fun e => (e.1, e.2.rhs))

end Rational
end Linear
end Metrology
