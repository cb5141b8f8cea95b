import Metrology.Dimensions
import Metrology.Qualifier

/-!
# The qualifier lattice of a session

The qualifiers that a session names: the three special ones, plain numbers, every
base dimension and further concrete units.  The subtype graph has a row for each
of them, which lists its direct supertypes.
-/

namespace Metrology

/-- The rows of a subtype graph: qualifiers, each with those directly above it. -/
abbrev SubtypeGraph := List (Qualifier × List Qualifier)

/-- The qualifiers of a session with their subtype graph, in listing order. -/
structure Lattice where
  dimensions : Dimensions
  supertypes : SubtypeGraph

namespace Lattice

/-- The first of some units that uses an undeclared dimension, and that dimension. -/
def undeclaredUnit? (dimensions : Dimensions) (units : List Monomial) :
    Option (Monomial × String) :=
  units.findSome? fun unit => (dimensions.undeclared? unit).map fun dim => (unit, dim)

/-- What the row of a qualifier lists. -/
def directSupertypes : Qualifier → List Qualifier
  | .top => []
  | .bottom => [.top, .poly]
  | .poly => [.top]
  | .concrete _ => [.top]

/-- Adds the row of a qualifier, unless it has one. -/
def addRow (graph : SubtypeGraph) (q : Qualifier) : SubtypeGraph :=
  if (graph.lookup q).isSome then graph else graph ++ [(q, directSupertypes q)]

/-- The lattice with `extra` concrete units, all of them over the dimensions. -/
def build (dimensions : Dimensions) (extra : List Monomial) : Except ConfigError Lattice :=
  match undeclaredUnit? dimensions extra with
  | some (unit, dim) => .error (.unitDimension unit dim)
  | none =>
    let units := Monomial.one :: dimensions.names.map Monomial.base ++ extra
    let graph := (.top :: .poly :: .bottom :: units.map .concrete).foldl addRow []
    .ok ⟨dimensions, graph.mergeSort fun a b => (a.1.compare b.1).isLE⟩

/-- All qualifiers in listing order. -/
def qualifiers (l : Lattice) : List Qualifier := l.supertypes.map Prod.fst

/-- Whether a qualifier belongs to the lattice. -/
def contains (l : Lattice) (q : Qualifier) : Bool := (l.supertypes.lookup q).isSome

/-- The qualifiers directly above one, as its row lists them.  A unit without a row is like those
that have one: only the top is directly above it. -/
def supertypesOf (l : Lattice) (q : Qualifier) : List Qualifier :=
  (l.supertypes.lookup q).getD [.top]

end Lattice
end Metrology
