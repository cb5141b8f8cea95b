import Metrology.Diagnostic
import Metrology.Monomial

/-!
# Unit qualifiers

A qualifier says what is known about the unit of a value.  Qualifiers are ordered
by how much they say: nothing is known at the top, no value inhabits the bottom,
and two different concrete units are related only through these two.  Products
and quotients follow the concrete units and fall back to the top where an
exponent leaves its range; only division by the uninhabited qualifier fails.
-/

namespace Metrology

/-- What is known about the unit of a value. -/
inductive Qualifier where
  /-- Unknown units; above every other qualifier. -/
  | top
  /-- No value has it; below every other qualifier. -/
  | bottom
  /-- To be chosen anew at each use. -/
  | poly
  /-- A known unit. -/
  | concrete (m : Monomial)
deriving DecidableEq

/-- A division whose divisor is uninhabited. -/
structure DivisionError where
  dividend : Qualifier
  divisor : Qualifier
deriving DecidableEq

namespace Qualifier

instance : Inhabited Qualifier := ⟨top⟩

/-- The unit of plain numbers. -/
def dimensionless : Qualifier := concrete Monomial.one

/-- A base dimension as a unit. -/
def base (dim : String) : Qualifier := concrete (Monomial.base dim)

/-- The qualifier as it appears in messages. -/
def render : Qualifier → String
  | top => "UnknownUnits"
  | bottom => "UnitsBottom"
  | poly => "PolyUnit"
  | concrete m => m.render

instance : ToString Qualifier := ⟨render⟩

/-- Whether the qualifier is a known unit. -/
def isConcrete : Qualifier → Bool
  | concrete _ => true
  | _ => false

/-- The monomial's qualifier, and the top if there is no monomial. -/
def ofMonomial? : Option Monomial → Qualifier
  | some m => concrete m
  | none => top

/-- The unit of a product. -/
def mul : Qualifier → Qualifier → Qualifier
  | top, _ | poly, _ | _, top | _, poly => top
  | bottom, _ | _, bottom => bottom
  | concrete a, concrete b => ofMonomial? (a.mul? b)

/-- The unit of a quotient by an inhabited divisor. -/
def quotient : Qualifier → Qualifier → Qualifier
  | top, _ | poly, _ | _, top | _, poly => top
  | bottom, _ | _, bottom => bottom
  | concrete a, concrete b => ofMonomial? (a.div? b)

/-- The unit of a quotient; an uninhabited divisor is an error. -/
def div (a b : Qualifier) : Except DivisionError Qualifier :=
  if b = bottom then .error ⟨a, b⟩ else .ok (quotient a b)

/-- The least qualifier above both. -/
def join : Qualifier → Qualifier → Qualifier
  | top, _ | _, top => top
  | bottom, b => b
  | a, bottom => a
  | a, b => if a = b then a else top

/-- A qualifier is below the top, above the bottom, and otherwise below itself only. -/
protected def le (sub sup : Qualifier) : Prop := sup = top ∨ sub = bottom ∨ sub = sup

instance : LE Qualifier := ⟨Qualifier.le⟩

instance (a b : Qualifier) : Decidable (a ≤ b) :=
  inferInstanceAs (Decidable (b = top ∨ a = bottom ∨ a = b))

/-- The place of the kind of qualifier in listings. -/
def rank : Qualifier → Nat
  | top => 0
  | bottom => 1
  | poly => 2
  | concrete _ => 3

/-- The order of listings: the special qualifiers, then the concrete units. -/
def compare (a b : Qualifier) : Ordering :=
  match a, b with
  | concrete x, concrete y => Ord.compare x y
  | _, _ => Ord.compare a.rank b.rank

end Qualifier

namespace DivisionError

/-- The text of the error. -/
def message (e : DivisionError) : String := s!"cannot divide {e.dividend} by {e.divisor}"

/-- The error as shown to the user. -/
def diagnostic (e : DivisionError) : Diagnostic where
  message := e.message
  code := some "units::arithmetic"
  help := some
    "the divisor is uninhabited (UnitsBottom); only null-like values carry that unit"

end DivisionError
end Metrology
