import Metrology.Model

/-!
# Components of units

Backends treat a concrete unit as a tuple of integers: its power of ten and the
exponents of some dimensions.  A dimension in no constant of a model occurs only
in homogeneous equations, so the components of a model are its power of ten and
the dimensions of its constants.
-/

namespace Metrology

/-- One integer of a concrete unit. -/
inductive Component where
  /-- The power of ten. -/
  | power
  /-- The exponent of a dimension. -/
  | dimension (name : String)
deriving DecidableEq

namespace Component

/-- The name that stands for the component in solver texts. -/
def name : Component → String
  | power => "Prefix"
  | dimension d => d

instance : ToString Component := ⟨name⟩

/-- The component of a monomial. -/
def valueOf : Component → Monomial → Exponent
  | power, m => m.power
  | dimension d, m => m.exponent d

/-- The monomial with the component replaced. -/
def assign : Component → Monomial → Exponent → Monomial
  | power, m, e => m.setPower e
  | dimension d, m, e => m.set d e

end Component

namespace Model

/-- The dimensions of the concrete constants, in name order. -/
def usedDimensions (m : Model) : List String :=
  sortedDistinct (m.constants.flatMap fun e =>
    match e.2 with
    | .concrete unit => unit.dimensions
    | _ => [])

/-- The power of ten followed by the used dimensions. -/
def components (m : Model) : List Component := .power :: m.usedDimensions.map .dimension

end Model
end Metrology
