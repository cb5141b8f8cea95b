import Metrology.Smt.Script
import Metrology.Solve.Error

/-!
# Constraints as formulas

A slot is seen as two flags, one for the top and one for the bottom, and one
integer for each component.  Every constraint becomes a formula over the views of
its operands; every unknown also gets an assertion that its flags exclude each
other and that a flagged slot has zero components, and a preference for being
concrete.
-/

namespace Metrology
namespace Smt

/-- The name of a slot's variable for a component or a flag. -/
def varName (id : SlotId) (component : String) : String := s!"{id}-{component}"

/-- The flag of the top in variable names. -/
def topMarker : String := "UnknownUnits"

/-- The flag of the bottom in variable names. -/
def bottomMarker : String := "UnitsBottom"

/-- A slot as two flags and the integers of its components. -/
structure View where
  top : Formula
  bottom : Formula
  components : List Term

namespace View

/-- The view of a constant; a polymorphic one counts as the top. -/
def ofQualifier (components : List Component) : Qualifier → View
  | .top | .poly => ⟨.lit true, .lit false, components.map fun _ => .lit 0⟩
  | .bottom => ⟨.lit false, .lit true, components.map fun _ => .lit 0⟩
  | .concrete unit =>
    ⟨.lit false, .lit false, components.map fun c => .lit (c.valueOf unit).val⟩

/-- The view of an unknown. -/
def ofUnknown (components : List Component) (id : SlotId) : View :=
  ⟨.var (varName id topMarker), .var (varName id bottomMarker),
    components.map fun c => .var (varName id c.name)⟩

/-- The view of an operand. -/
def ofOperand (components : List Component) (o : Operand) : View :=
  match o.slot with
  | .constant unit => ofQualifier components unit
  | .unknown _ => ofUnknown components o.id

/-- The slot is neither the top nor the bottom. -/
def concrete (v : View) : Formula := .conj [v.top.negate, v.bottom.negate]

/-- Two slots have the same unit. -/
def same (a b : View) : Formula :=
  .conj (Formula.equiv a.top b.top :: Formula.equiv a.bottom b.bottom ::
    List.zipWith Formula.equate a.components b.components)

/-- All components are zero. -/
def zero (v : View) : Formula := .conj (v.components.map fun t => Formula.equate t (.lit 0))

/-- The flags exclude each other, and a flagged slot has zero components. -/
def wellFormed (v : View) : Formula :=
  .conj [(Formula.conj [v.top, v.bottom]).negate, .imply v.top v.zero, .imply v.bottom v.zero]

/-- The result has the components of the operands put together by `op`. -/
def combined (op : Term → Term → Term) (l r result : View) : List Formula :=
  List.zipWith Formula.equate result.components (List.zipWith op l.components r.components)

/-- The result is the top if an operand is, else the bottom if an operand is, else combined. -/
def arithmetic (op : Term → Term → Term) (l r result : View) : Formula :=
  let anyTop := Formula.disj [l.top, r.top]
  let anyBottom := Formula.disj [l.bottom, r.bottom]
  .conj [
    .imply anyTop result.top,
    .imply (.conj [anyTop.negate, anyBottom]) result.bottom,
    .imply (.conj [l.concrete, r.concrete]) (.conj (result.concrete :: combined op l r result))]

/-- The result is the join of the operands. -/
def join (l r result : View) : Formula :=
  let anyTop := Formula.disj [l.top, r.top]
  let noTop := anyTop.negate
  let bothConcrete := Formula.conj [l.concrete, r.concrete]
  let equal := same l r
  .conj [
    .imply anyTop result.top,
    .imply (.conj [noTop, l.bottom]) (same result r),
    .imply (.conj [noTop, r.bottom]) (same result l),
    .imply (.conj [bothConcrete, equal]) (same result l),
    .imply (.conj [bothConcrete, equal.negate]) result.top]

/-- The first slot is below the second. -/
def below (a b : View) : Formula := .disj [b.top, a.bottom, same a b]

/-- The formula of a constraint between views. -/
def formula : Constraint View → Formula
  | .subtype a b => below a b
  | .equal a b => same a b
  | .join l r result => join l r result
  | .product l r result => arithmetic Term.plus l r result
  | .quotient l r result => .conj [r.bottom.negate, arithmetic Term.minus l r result]

end View

/-- The division by an uninhabited constant that a constraint asks for. -/
def divisionError? : Constraint Operand → Option DivisionError
  | .quotient lhs rhs _ =>
    if rhs.slot = .constant .bottom then some ⟨lhs.slot.constant?.getD .top, .bottom⟩ else none
  | _ => none

/-- The formula of a constraint over some components. -/
def encodeConstraint (components : List Component) (c : Constraint Operand) :
    Except SolveError Formula :=
  match divisionError? c with
  | some e => .error (.arithmetic e)
  | none => .ok (View.formula (c.map (View.ofOperand components)))

namespace Problem

/-- Declares an unknown slot, asserts its form and prefers it concrete. -/
def addUnknown (components : List Component) (p : Problem) (slot : SlotId × String) : Problem :=
  let (id, location) := slot
  let view := View.ofUnknown components id
  let p := (p.declare (varName id topMarker) .bool).declare (varName id bottomMarker) .bool
  let p := components.foldl (fun p c => p.declare (varName id c.name) .int) p
  let p := p.assert s!"wf{id}" s!"slot #{id} ({location}) is well-formed" view.wellFormed
  p.prefer view.concrete 1

/-- Asserts the formula of a numbered constraint. -/
def addConstraint (components : List Component) (p : Problem) (c : Constraint Operand × Nat) :
    Except SolveError Problem := do
  let formula ← encodeConstraint components c.1
  return p.assert s!"c{c.2}" (c.1.map Operand.id).render formula

/-- The problem of a model over some components. -/
def ofModel (m : Model) (components : List Component) : Except SolveError Problem := do
  let constraints ← SolveError.ofForeign m.linked
  constraints.zipIdx.foldlM (addConstraint components)
    (m.unknowns.foldl (addUnknown components) empty)

end Problem
end Smt
end Metrology
