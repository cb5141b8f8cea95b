import Metrology.Solve.Error

/-!
# Backends

The two kinds of solver and what a solve returns.
-/

namespace Metrology

/-- The kinds of solver. -/
inductive Backend where
  /-- Search by an SMT engine. -/
  | smt
  /-- Elimination in linear systems. -/
  | linear
deriving DecidableEq

namespace Backend

instance : Inhabited Backend := ⟨smt⟩

/-- The name of a backend in configurations and reports. -/
def name : Backend → String
  | smt => "smt"
  | linear => "gje"

instance : ToString Backend := ⟨name⟩

/-- The backend with a given name. -/
def ofName? : String → Option Backend
  | "smt" => some smt
  | "gje" => some linear
  | _ => none

/-- The complaint about a name that is no backend's. -/
def unknownName (name : String) : String :=
  s!"unknown backend `{name}` (expected `smt` or `gje`)"

end Backend

/-- The size of a solve and the time it took. -/
structure Statistics where
  backend : Backend
  unknowns : Nat
  equations : Nat
  soft : Nat
  groups : Nat
  serializationMs : Nat := 0
  solvingMs : Nat := 0
deriving DecidableEq

/-- An assignment and the statistics of finding it. -/
structure Solved where
  solution : Assignment
  statistics : Statistics
deriving DecidableEq

end Metrology
