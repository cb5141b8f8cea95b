import Metrology.Model

/-!
# Checking an assignment

A check lists, in model order, the constraints that an assignment violates, each
with the reason.
-/

namespace Metrology

/-- Why a constraint does not hold under an assignment. -/
inductive Fault where
  | unassigned (id : SlotId) (location : String)
  | notSubtype (sub sup : Qualifier)
  | differs (lhs rhs : Qualifier)
  | joinIs (lhs rhs expected found : Qualifier)
  | productIs (lhs rhs expected found : Qualifier)
  | quotientIs (lhs rhs expected found : Qualifier)
  | division (error : DivisionError)
deriving DecidableEq

/-- The text of a fault. -/
def Fault.message : Fault → String
  | unassigned id location => s!"slot #{id} ({location}) has no unit assigned"
  | notSubtype a b => s!"{a} is not a subtype of {b}"
  | differs a b => s!"{a} differs from {b}"
  | joinIs a b want r => s!"lub({a}, {b}) is {want}, found {r}"
  | productIs a b want r => s!"{a} * {b} is {want}, found {r}"
  | quotientIs a b want r => s!"{a} / {b} is {want}, found {r}"
  | division e => e.message

/-- A violated constraint. -/
structure Violation where
  constraint : Constraint SlotId
  fault : Fault
deriving DecidableEq

namespace Constraint

/-- Why units do not satisfy a constraint, if they do not. -/
def mismatch? : Constraint Qualifier → Option Fault
  | subtype a b => if a ≤ b then none else some (.notSubtype a b)
  | equal a b => if a = b then none else some (.differs a b)
  | join a b r => if a.join b = r then none else some (.joinIs a b (a.join b) r)
  | product a b r => if a.mul b = r then none else some (.productIs a b (a.mul b) r)
  | quotient a b r =>
    match a.div b with
    | .ok want => if want = r then none else some (.quotientIs a b want r)
    | .error e => some (.division e)

/-- The constraint between the units that an assignment gives. -/
def evaluate (s : Assignment) (c : Constraint Operand) : Except Fault (Constraint Qualifier) :=
  c.mapExcept fun o =>
    match o.unit? s with
    | some unit => .ok unit
    | none => .error (.unassigned o.id (o.slot.location?.getD ""))

/-- Why an assignment violates a constraint, if it does. -/
def fault? (s : Assignment) (c : Constraint Operand) : Option Fault :=
  match c.evaluate s with
  | .ok units => units.mismatch?
  | .error fault => some fault

end Constraint

/-- The constraints of a model that an assignment violates. -/
def Model.check (m : Model) (s : Assignment) : Except ForeignSlot (List Violation) := do
  let constraints ← m.linked
  return constraints.filterMap fun c => (c.fault? s).map fun f => ⟨c.map Operand.id, f⟩

end Metrology
