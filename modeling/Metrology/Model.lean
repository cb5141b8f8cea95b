import Metrology.Constraint

/-!
# Constraint models

A model numbers slots, each a constant qualifier or an unknown at a program
location, and lists constraints between them.  Slots and constraints are only
ever added.  A constraint over a slot that the model lacks is refused; what an
operation did before the refusal stays.
-/

namespace Metrology

/-- The number of a slot. -/
abbrev SlotId := Nat

/-- A place for a unit. -/
inductive Slot where
  /-- A fixed unit. -/
  | constant (unit : Qualifier)
  /-- An unknown unit at a program location. -/
  | unknown (location : String)
deriving DecidableEq

namespace Slot

/-- The unit of a constant slot. -/
def constant? : Slot → Option Qualifier
  | constant unit => some unit
  | unknown _ => none

/-- The location of a variable slot. -/
def location? : Slot → Option String
  | constant _ => none
  | unknown location => some location

end Slot

/-- Numbered slots and the constraints between them. -/
structure Model where
  slots : Array Slot := #[]
  constraints : Array (Constraint SlotId) := #[]
deriving DecidableEq

/-- A slot number that the model did not give out. -/
structure ForeignSlot where
  id : SlotId
deriving DecidableEq

/-- The text of the refusal. -/
def ForeignSlot.message (e : ForeignSlot) : String :=
  s!"slot #{e.id} was not created by this constraint model (front-end bug)"

/-- The operators of binary expressions. -/
inductive BinaryOp where
  | add | sub | mul | div | rem | concat | eq | ne | lt | le | gt | ge | and | or
deriving DecidableEq

/-- The kinds of literals. -/
inductive LiteralKind where
  | null | string | char | bool | number
deriving DecidableEq

namespace Model

/-- The model without slots. -/
def empty : Model := {}

instance : Inhabited Model := ⟨empty⟩

/-- A slot by its number. -/
def slot (m : Model) (id : SlotId) : Except ForeignSlot Slot :=
  match m.slots[id]? with
  | some s => .ok s
  | none => .error ⟨id⟩

/-- The slots with their numbers. -/
def numbered (m : Model) : List (SlotId × Slot) := m.slots.toList.zipIdx.map fun e => (e.2, e.1)

/-- The unknowns with their locations. -/
def unknowns (m : Model) : List (SlotId × String) :=
  m.numbered.filterMap fun e => e.2.location?.map fun location => (e.1, location)

/-- The constants with their units. -/
def constants (m : Model) : List (SlotId × Qualifier) :=
  m.numbered.filterMap fun e => e.2.constant?.map fun unit => (e.1, unit)

/-- A step that extends a model and may be refused half-way. -/
abbrev Build := ExceptT ForeignSlot (StateM Model)

/-- Runs a step; a refused one keeps what it did first. -/
def build {α : Type} (m : Model) (step : Build α) : Except ForeignSlot α × Model := step.run.run m

namespace Build

/-- Adds a slot and returns its number. -/
def addSlot (s : Slot) : Build SlotId :=
  modifyGet fun m => (m.slots.size, { m with slots := m.slots.push s })

/-- Adds a constant. -/
def constant (unit : Qualifier) : Build SlotId := addSlot (.constant unit)

/-- Adds a constant whose annotation was never resolved; it counts as dimensionless. -/
def rawConstant : Build SlotId := constant .dimensionless

/-- Adds an unknown. -/
def unknown (location : String) : Build SlotId := addSlot (.unknown location)

/-- Refuses a number that is not a slot's. -/
def require (id : SlotId) : Build PUnit := do
  if id < (← get).slots.size then pure ⟨⟩ else throw ⟨id⟩

/-- Adds a constraint between slots of the model. -/
def constrain (c : Constraint SlotId) : Build PUnit := do
  c.slots.forM require
  modify fun m => { m with constraints := m.constraints.push c }

/-- Adds the slot for the value of a binary expression and constrains it. -/
def binaryOperation (op : BinaryOp) (lhs rhs : SlotId) (location : String) : Build SlotId :=
  match op with
  | .add | .sub => do
    let result ← unknown location
    constrain (.join lhs rhs result)
    return result
  | .mul => do
    let result ← unknown location
    constrain (.product lhs rhs result)
    return result
  | .div => do
    let result ← unknown location
    constrain (.quotient lhs rhs result)
    return result
  | .rem => do
    let result ← unknown location
    constrain (.equal result lhs)
    return result
  | .concat | .eq | .ne | .lt | .le | .gt | .ge | .and | .or => do
    require lhs
    require rhs
    constant .dimensionless

/-- Adds the slot for a literal. -/
def literal (kind : LiteralKind) (location : String) : Build SlotId :=
  match kind with
  | .null => constant .bottom
  | .string | .char | .bool => constant .dimensionless
  | .number => unknown location

end Build
end Model

/-- A slot together with its number. -/
structure Operand where
  id : SlotId
  slot : Slot
deriving DecidableEq

namespace Model

/-- The slot with a given number as an operand. -/
def operand (m : Model) (id : SlotId) : Except ForeignSlot Operand :=
  (m.slot id).map fun s => ⟨id, s⟩

/-- The constraints with the slots that they name put in. -/
def linked (m : Model) : Except ForeignSlot (List (Constraint Operand)) :=
  m.constraints.toList.mapM fun c => c.mapExcept m.operand

end Model

/-- Units of the unknowns of a model. -/
abbrev Assignment := SortedMap SlotId Qualifier

/-- The unit of an operand: its own if it is constant, else the assigned one. -/
def Operand.unit? (o : Operand) (s : Assignment) : Option Qualifier :=
  match o.slot with
  | .constant unit => some unit
  | .unknown _ => s.get? o.id

/-- The unit of a slot under an assignment. -/
def Model.resolve (m : Model) (s : Assignment) (id : SlotId) :
    Except ForeignSlot (Option Qualifier) :=
  (m.operand id).map fun o => o.unit? s

end Metrology
