import Metrology.Linear.System

/-!
# Augmented rows

A row holds the coefficients of all unknowns in order and the right-hand side.
-/

namespace Metrology
namespace Linear

/-- The inner product of two lists of numbers. -/
def dot {α : Type} [Add α] [Mul α] [OfNat α 0] (u v : List α) : α :=
  (List.zipWith (· * ·) u v).foldr (· + ·) 0

/-- The combination `a * u + b * v` of two lists of numbers. -/
def combine {α : Type} [Add α] [Mul α] (a : α) (u : List α) (b : α) (v : List α) : List α :=
  List.zipWith (fun x y => a * x + b * y) u v

/-- The coefficients of all unknowns and the right-hand side. -/
structure Row (α : Type) where
  coefficients : List α
  rhs : α
deriving DecidableEq

namespace Row

/-- The coefficient in a column. -/
def entry {α : Type} [OfNat α 0] (r : Row α) (column : Nat) : α := r.coefficients.getD column 0

/-- The row with every number changed by `f`. -/
def map {α β : Type} (f : α → β) (r : Row α) : Row β := ⟨r.coefficients.map f, f r.rhs⟩

/-- Whether numbers for the unknowns satisfy the row. -/
def Holds {α : Type} [Add α] [Mul α] [OfNat α 0] (r : Row α) (x : List α) : Prop :=
  dot r.coefficients x = r.rhs

/-- The row of an equation over a number of unknowns. -/
def ofEquation (width : Nat) (e : Equation) : Row Int :=
  ⟨(List.range width).map e.coefficient, e.rhs⟩

end Row

/-- The rows of a system. -/
def ReadSystem.rows (s : ReadSystem) : List (Row Int) := s.equations.map (Row.ofEquation s.width)

end Linear
end Metrology
