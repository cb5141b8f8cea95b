import Metrology.Smt.Encoding
import Metrology.Solve.Backend
import Metrology.Text.Blank
import Metrology.Text.Numeral

/-!
# Solving by an SMT engine

An engine decides a problem.  A model comes back as lines of a variable and its
value; a variable without a line is false or zero.
-/

namespace Metrology
namespace Smt

/-- What an engine answers. -/
inductive Outcome where
  /-- The lines of a model. -/
  | sat (model : String)
  /-- The labels of assertions that cannot all hold. -/
  | unsat (core : List String)
  | unknown (reason : String)
deriving DecidableEq

/-- Something that decides problems.  A limit on its time belongs to the engine: `check` is what it
answers under the limit that it was given, and another limit makes another engine. -/
structure Engine where
  name : String
  check : Problem → Except SolveError Outcome

/-- The engine of a build without one. -/
def Engine.none : Engine where
  name := "none"
  check _ := .error (.unavailable .noEngine)

/-- The values of variables by name. -/
abbrev ModelText := SortedMap String String

namespace ModelText

/-- Reads one line of a model. -/
def readLine (values : ModelText) (line : List Char × Nat) : Except SolveError ModelText :=
  let trimmed := Text.trim line.1
  if trimmed.isEmpty then .ok values
  else
    match Text.words trimmed with
    | [name, value] => .ok (values.insert (String.ofList name) (String.ofList value))
    | _ => .error (.malformed (.badModelLine (line.2 + 1) (String.ofList trimmed)))

/-- Reads the lines of a model; the last line of a variable counts. -/
def read (text : String) : Except SolveError ModelText :=
  (Text.lines text.toList).zipIdx.foldlM readLine SortedMap.empty

/-- The value of a flag. -/
def flag (values : ModelText) (name : String) : Except SolveError Bool :=
  match values.get? name with
  | none => .ok false
  | some "false" => .ok false
  | some "true" => .ok true
  | some other => .error (.malformed (.notBoolean name other))

/-- The value of a component. -/
def component (values : ModelText) (name : String) : Except SolveError Exponent :=
  match values.get? name with
  | none => .ok 0
  | some raw =>
    match (Numeral.int? raw.toList).bind Exponent.ofInt? with
    | some n => .ok n
    | none => .error (.malformed (.notInteger name raw))

/-- The unit of an unknown slot; a slot with both flags is at the top. -/
def unitOf (values : ModelText) (components : List Component) (id : SlotId) :
    Except SolveError Qualifier := do
  let top ← values.flag (varName id topMarker)
  let bottom ← values.flag (varName id bottomMarker)
  if top then return .top
  if bottom then return .bottom
  let unit ← components.foldlM
    (fun unit c => do return c.assign unit (← values.component (varName id c.name)))
    Monomial.one
  return .concrete unit

/-- The units of all unknown slots of a model. -/
def assignment (values : ModelText) (m : Model) (components : List Component) :
    Except SolveError Assignment := do
  let units ← m.unknowns.mapM fun v => do return (v.1, ← values.unitOf components v.1)
  return SortedMap.ofList units

end ModelText

/-- The size of a problem. -/
def Problem.statistics (p : Problem) : Statistics where
  backend := .smt
  unknowns := p.declarations.length
  equations := p.hard.length
  soft := p.soft.length
  groups := 1

/-- The reasons behind an unsatisfiable core. -/
def Problem.coreReasons (p : Problem) (core : List String) : List Reason :=
  match core.map fun label => Reason.core ((p.origin? label).getD label) with
  | [] => [.noCore]
  | reasons => reasons

/-- Finds units for the unknown slots of a model.  The limit only says how an engine that gives up
is reported. -/
def solve (engine : Engine) (timeout : Option Nat) (m : Model) : Except SolveError Solved := do
  let problem ← Problem.ofModel m m.components
  match ← engine.check problem with
  | .sat text =>
    let values ← ModelText.read text
    let solution ← values.assignment m m.components
    return ⟨solution, problem.statistics⟩
  | .unsat core => throw (.unsatisfiable (problem.coreReasons core))
  | .unknown reason =>
    match timeout with
    | some limit => throw (.timeout limit)
    | none => throw (.unavailable (.undecided reason))

end Smt
end Metrology
