import Metrology.Linear.Eliminator
import Metrology.Linear.Encoding
import Metrology.Solve.Backend

/-!
# Solving by elimination

Each component has its own system, so the systems are solved one by one and their
integers put together into units.  A fractional answer of a tool is decided again
over the integers before the component counts as unsatisfiable.
-/

namespace Metrology
namespace Linear

/-- Integers for the unknowns of one system, by index. -/
abbrev SystemValues := SortedMap Nat Exponent

/-- The values of an answer, decided again over the integers if one is fractional. -/
def integralValues (system : ComponentSystem) (text : String) :
    Except SolveError (List (Nat × Rat)) := do
  match ← readResults text with
  | .unsat => throw (.unsatisfiable [.inconsistent system.component])
  | .sat values =>
    if (Results.sat values).isFractional then
      match (← readSystem system.text).decide with
      | .sat values => return values
      | .unsat => throw (.unsatisfiable [.noIntegralSolution system.component])
    else return values

/-- Stores one value of an answer. -/
def storeValue (unknowns : List SlotId) (stored : SystemValues) (value : Nat × Rat) :
    Except SolveError SystemValues :=
  match unknowns[value.1]? with
  | none => .error (.malformed (.noSuchUnknown value.1))
  | some slot =>
    match if value.2.den = 1 then Exponent.ofInt? value.2.num else none with
    | some n => .ok (stored.insert value.1 n)
    | none =>
      .error (.malformed (.exponentOutOfRange (Numeral.renderRational value.2) slot))

/-- Reads the answer to a system. -/
def decodeSystem (system : ComponentSystem) (unknowns : List SlotId) (text : String) :
    Except SolveError SystemValues := do
  let values ← integralValues system text
  values.foldlM (storeValue unknowns) SortedMap.empty

/-- The unit of an unknown slot, given the values of all systems. -/
def Encoding.unitOf (e : Encoding) (values : List (Component × SystemValues)) (id : SlotId) :
    Qualifier :=
  match e.categories.get? id with
  | some category => category.unit
  | none =>
    match e.unknowns.idxOf? id with
    | none => .concrete .one
    | some index =>
      .concrete (values.foldl (fun unit v =>
        match v.2.get? index with
        | some n => v.1.assign unit n
        | none => unit) .one)

/-- The units of all unknown slots. -/
def Encoding.assemble (e : Encoding) (m : Model) (values : List (Component × SystemValues)) :
    Assignment :=
  SortedMap.ofList (m.unknowns.map fun v => (v.1, e.unitOf values v.1))

/-- Gathers the answers of all systems: the first failure counts, and unsatisfiable systems
only after all others succeeded. -/
def gather : List (Component × Except SolveError SystemValues) →
    Except SolveError (List Reason × List (Component × SystemValues))
  | [] => .ok ([], [])
  | (component, .ok values) :: rest =>
    (gather rest).map fun found => (found.1, (component, values) :: found.2)
  | (_, .error (.unsatisfiable reasons)) :: rest =>
    (gather rest).map fun found => (reasons ++ found.1, found.2)
  | (_, .error e) :: _ => .error e

/-- The size of an encoding. -/
def Encoding.statistics (e : Encoding) : Statistics where
  backend := .linear
  unknowns := e.unknowns.length
  equations := e.systems.foldr (fun s count => s.equations.size + count) 0
  soft := 0
  groups := e.systems.length

/-- Puts together the answers to the systems of an encoded model, one for each. -/
def Encoding.finish (e : Encoding) (m : Model) (answers : List (Except SolveError String)) :
    Except SolveError Solved := do
  let values := (e.systems.zip answers).map fun a =>
    (a.1.component, a.2 >>= decodeSystem a.1 e.unknowns)
  let (reasons, values) ← gather values
  if !reasons.isEmpty then
    throw (.unsatisfiable reasons)
  return ⟨e.assemble m values, e.statistics⟩

/-- Solves the systems of an encoded model. -/
def Encoding.solve (e : Encoding) (eliminator : Eliminator) (m : Model) :
    Except SolveError Solved :=
  e.finish m (e.systems.map fun s => eliminator.eliminate s.text)

/-- Finds units for the unknown slots of a model. -/
def solve (eliminator : Eliminator) (m : Model) : Except SolveError Solved := do
  let encoding ← Encoding.ofModel m m.components
  encoding.solve eliminator m

end Linear
end Metrology
