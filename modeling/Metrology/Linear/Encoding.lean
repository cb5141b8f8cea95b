import Metrology.Linear.Propagation
import Metrology.Linear.System

/-!
# Constraints as linear systems

Between concrete units every constraint is a linear relation that holds component
by component.  An encoding settles the categories first, turns the remaining
constraints into relations and lists, for each component, the equations that the
relations become once constants move to the right-hand side.
-/

namespace Metrology
namespace Linear

/-- A vanishing integer combination of operands, with the constraint that asks for it. -/
structure Relation where
  origin : Constraint SlotId
  terms : List (Operand × Int)
deriving DecidableEq

namespace Relation

/-- The relation that two operands are equal. -/
def equal (origin : Constraint SlotId) (a b : Operand) : Relation := ⟨origin, [(a, 1), (b, -1)]⟩

/-- The unknowns that occur. -/
def unknowns (r : Relation) : List SlotId :=
  r.terms.filterMap fun t =>
    match t.1.slot with
    | .constant _ => none
    | .unknown _ => some t.1.id

/-- Moves one term into an equation over a component. -/
def addTo (unknowns : List SlotId) (component : Component) (e : Equation)
    (t : Operand × Int) : Equation :=
  match t.1.slot with
  | .constant (.concrete unit) => e.addRhs (-t.2 * (component.valueOf unit).val)
  | .constant _ => e
  | .unknown _ =>
    match unknowns.idxOf? t.1.id with
    | some index => e.addTerm index t.2
    | none => e

/-- The equation of a relation over a component. -/
def equation (unknowns : List SlotId) (component : Component) (r : Relation) : Equation :=
  r.terms.foldl (addTo unknowns component) Equation.trivial

end Relation

namespace Categories

/-- The relations by which two operands are the same unit. -/
def same (k : Categories) (origin : Constraint SlotId) (a b : Operand) :
    Except Conflict (List Relation) :=
  match k.of a, k.of b with
  | none, none => .ok [.equal origin a b]
  | x, y => if x = y then .ok [] else .error (.cannotEqual x y)

/-- No relations, provided that an operand has a category. -/
def require (k : Categories) (result : Operand) (expected : Category) :
    Except Conflict (List Relation) :=
  if k.of result = some expected then .ok [] else .error (.resultMustBe expected (k.of result))

/-- The relations of a product or a quotient; `sign` is the coefficient of the right operand. -/
def arithmetic (k : Categories) (origin : Constraint SlotId) (lhs rhs result : Operand)
    (sign : Int) : Except Conflict (List Relation) :=
  if k.isTop lhs || k.isTop rhs then k.require result .top
  else if k.isBottom lhs || k.isBottom rhs then k.require result .bottom
  else
    match k.of result with
    | none => .ok [⟨origin, [(result, 1), (lhs, -1), (rhs, sign)]⟩]
    | found => .error (.arithmeticResult found)

/-- The relations of a join of two operands without categories. -/
def joinConcrete (k : Categories) (origin : Constraint SlotId) (lhs rhs result : Operand) :
    Except Conflict (List Relation) :=
  match k.of result with
  | none => .ok [.equal origin lhs rhs, .equal origin rhs result]
  | some .bottom => .error .joinBottom
  | some .top =>
    match lhs.slot, rhs.slot with
    | .constant a, .constant b => if a = b then .error (.selfJoin a) else .ok []
    | _, _ => .ok []

/-- The relations that a constraint asks for once categories are settled. -/
def relations (k : Categories) (c : Constraint Operand) : Except Conflict (List Relation) :=
  let origin := c.map Operand.id
  match c with
  | .equal lhs rhs => k.same origin lhs rhs
  | .subtype sub sup =>
    if k.isTop sup || k.isBottom sub then .ok [] else k.same origin sub sup
  | .join lhs rhs result =>
    if k.isTop lhs || k.isTop rhs then k.require result .top
    else if k.isBottom lhs then k.same origin result rhs
    else if k.isBottom rhs then k.same origin result lhs
    else k.joinConcrete origin lhs rhs result
  | .product lhs rhs result => k.arithmetic origin lhs rhs result (-1)
  | .quotient lhs rhs result => k.arithmetic origin lhs rhs result 1

/-- Whether a join holds only if its operands differ, which no equation says. -/
def needsDisequality (k : Categories) : Constraint Operand → Bool
  | .join lhs rhs result =>
    k.isTop result && (k.of lhs).isNone && (k.of rhs).isNone &&
      !(lhs.slot.constant?.isSome && rhs.slot.constant?.isSome)
  | _ => false

/-- The unit of a dividend as far as it is known. -/
def dividend (k : Categories) (o : Operand) : Qualifier :=
  match o.slot with
  | .constant unit => unit
  | .unknown _ =>
    match k.of o with
    | some category => category.unit
    | none => .top

/-- The division by an uninhabited divisor that a constraint asks for. -/
def divisionError? (k : Categories) : Constraint Operand → Option DivisionError
  | .quotient lhs rhs _ =>
    if k.isBottom rhs then some ⟨k.dividend lhs, .bottom⟩ else none
  | _ => none

/-- What becomes of a constraint: relations, a conflict, or a reason to stop. -/
def encodeConstraint (k : Categories) (c : Constraint Operand) :
    Except SolveError (Except Reason (List Relation)) :=
  match k.divisionError? c with
  | some e => .error (.arithmetic e)
  | none =>
    if k.needsDisequality c then
      .error (.unavailable (.operandsMustDiffer (c.map Operand.id)))
    else
      match k.relations c with
      | .ok relations => .ok (.ok relations)
      | .error why => .ok (.error (.conflict (c.map Operand.id) why))

end Categories

/-- The reason in a failed outcome. -/
def reason? {α : Type} : Except Reason α → Option Reason
  | .ok _ => none
  | .error r => some r

/-- A model as linear systems. -/
structure Encoding where
  /-- The slots of the unknowns, in order. -/
  unknowns : List SlotId
  categories : Categories
  /-- The systems of the components that have equations. -/
  systems : List ComponentSystem
deriving DecidableEq

namespace Encoding

/-- The conflicts between constants of one component. -/
def constantConflicts (unknowns : List SlotId) (relations : List Relation)
    (component : Component) : List Reason :=
  relations.filterMap fun r =>
    let e := r.equation unknowns component
    if e.isConstant && e.rhs != 0 then some (.constants r.origin component) else none

/-- The system of one component. -/
def systemOf (unknowns : List SlotId) (relations : List Relation) (component : Component) :
    ComponentSystem :=
  let equations := (relations.map fun r => r.equation unknowns component).filter fun e =>
    !e.isConstant
  equations.foldl ComponentSystem.push ⟨component, unknowns.length, SortedMap.empty⟩

/-- The systems of relations, unless constants disagree. -/
def ofRelations (categories : Categories) (relations : List Relation)
    (components : List Component) : Except SolveError Encoding :=
  let unknowns := sortedDistinct (relations.flatMap Relation.unknowns)
  let reasons := components.flatMap (constantConflicts unknowns relations)
  let systems := components.map (systemOf unknowns relations)
  if reasons.isEmpty then
    .ok ⟨unknowns, categories, systems.filter fun s => !s.equations.isEmpty⟩
  else .error (.unsatisfiable reasons)

/-- The encoding of a model over some components. -/
def ofModel (m : Model) (components : List Component) : Except SolveError Encoding := do
  let constraints ← SolveError.ofForeign m.linked
  let categories := Categories.ofConstraints m.slots.size constraints
  let outcomes ← constraints.mapM categories.encodeConstraint
  let reasons := outcomes.filterMap reason?
  if !reasons.isEmpty then
    throw (.unsatisfiable reasons)
  ofRelations categories (outcomes.flatMap fun o => o.toOption.getD []) components

end Encoding
end Linear
end Metrology
