import Metrology.Component

/-!
# Failures of a solve

Every way in which a backend can fail to return an assignment, as causes with
their wording: constraints that cannot all hold, a tool that cannot be asked,
a tool that gave up, and tool output that cannot be read.
-/

namespace Metrology

/-- A unit that is settled without linear algebra. -/
inductive Category where
  | top
  | bottom
deriving DecidableEq

namespace Category

/-- The qualifier of a category. -/
def unit : Category → Qualifier
  | top => .top
  | bottom => .bottom

/-- A category, or the lack of one, in messages. -/
def describe : Option Category → String
  | some top => "UnknownUnits"
  | some bottom => "UnitsBottom"
  | none => "a concrete unit"

end Category

/-- Why the categories around a constraint contradict it. -/
inductive Conflict where
  | cannotEqual (lhs rhs : Option Category)
  | resultMustBe (expected : Category) (found : Option Category)
  | selfJoin (unit : Qualifier)
  | joinBottom
  | arithmeticResult (found : Option Category)
deriving DecidableEq

/-- The text of a conflict. -/
def Conflict.message : Conflict → String
  | cannotEqual a b => Category.describe a ++ " cannot equal " ++ Category.describe b
  | resultMustBe want found =>
    "result must be " ++ Category.describe (some want) ++ " but is " ++ Category.describe found
  | selfJoin unit => s!"join of {unit} with itself cannot be UnknownUnits"
  | joinBottom => "join of two concrete units cannot be Bottom"
  | arithmeticResult found =>
    "arithmetic on concrete units cannot be " ++ Category.describe found

/-- One reason for which constraints cannot all hold. -/
inductive Reason where
  | conflict (constraint : Constraint SlotId) (why : Conflict)
  | constants (constraint : Constraint SlotId) (component : Component)
  | inconsistent (component : Component)
  | noIntegralSolution (component : Component)
  /-- The origin of an assertion in an unsatisfiable core. -/
  | core (origin : String)
  | noCore
deriving DecidableEq

/-- The text of a reason. -/
def Reason.message : Reason → String
  | conflict c why =>
    let text := why.message
    s!"{c}: {text}"
  | constants c component => s!"{c}: constants disagree in `{component}`"
  | inconsistent component => s!"equations over `{component}` are inconsistent"
  | noIntegralSolution component => s!"equations over `{component}` have no integral solution"
  | core origin => origin
  | noCore => "no unsat core reported"

/-- Why a solver cannot be asked. -/
inductive Unavailability where
  | operandsMustDiffer (constraint : Constraint SlotId)
  | noEngine
  | undecided (reason : String)
  | cannotStart (program error : String)
  | writing (program error : String)
  | exited (program status complaint : String)
deriving DecidableEq

/-- The text of an unavailability. -/
def Unavailability.message : Unavailability → String
  | operandsMustDiffer c =>
    s!"{c}: operands must differ, which the linear-algebra backend cannot express"
  | noEngine =>
    "Z3 engine is not enabled. Rebuild with `--features units-solve/z3` or use the `gje` backend."
  | undecided reason => reason
  | cannotStart program error => s!"cannot start `{program}`: {error}"
  | writing program error => s!"writing to `{program}`: {error}"
  | exited program status complaint => s!"`{program}` exited with {status}: {complaint}"

/-- The two counts at the head of a system. -/
inductive CountLine where
  | unknowns
  | equations
deriving DecidableEq

/-- The name of a count. -/
def CountLine.describe : CountLine → String
  | unknowns => "variable count"
  | equations => "equation count"

instance : ToString CountLine := ⟨CountLine.describe⟩

/-- Why a text exchanged with a solver cannot be read. -/
inductive Malformation where
  | missingCount (what : CountLine)
  | badCount (what : CountLine) (line : String)
  | badEquation (line : String)
  | unknownOutOfRange (index : Nat) (line : String)
  | equationCount (declared found : Nat)
  | badResult (line : String)
  | badVerdict (line : String)
  | emptyResults
  | noSuchUnknown (index : Nat)
  | exponentOutOfRange (value : String) (slot : SlotId)
  | badModelLine (number : Nat) (line : String)
  | notBoolean (name value : String)
  | notInteger (name value : String)
  | notUtf8 (program : String)
deriving DecidableEq

/-- The text of a malformation. -/
def Malformation.message : Malformation → String
  | missingCount what => s!"missing {what}"
  | badCount what line => s!"bad {what} `{line}`"
  | badEquation line => s!"bad equation `{line}`"
  | unknownOutOfRange index line => s!"unknown {index} out of range in `{line}`"
  | equationCount declared found =>
    s!"system declares {declared} equations but contains {found}"
  | badResult line => s!"bad result line `{line}`"
  | badVerdict line => s!"results must start with `sat` or `unsat`, found `{line}`"
  | emptyResults => "empty results stream"
  | noSuchUnknown index => s!"result for unknown {index}, which does not exist"
  | exponentOutOfRange value slot => s!"exponent {value} for slot #{slot} is out of range"
  | badModelLine number line => s!"line {number}: expected `<name> <value>`, found `{line}`"
  | notBoolean name value => s!"`{name}` should be a boolean, found `{value}`"
  | notInteger name value => s!"`{name}` should be an integer, found `{value}`"
  | notUtf8 program => s!"`{program}` wrote non-UTF-8 output"

/-- Why a solve returned no assignment. -/
inductive SolveError where
  | unsatisfiable (reasons : List Reason)
  | unavailable (cause : Unavailability)
  | timeout (limit : Nat)
  | arithmetic (error : DivisionError)
  | malformed (cause : Malformation)
  | foreign (slot : ForeignSlot)
deriving DecidableEq

namespace SolveError

/-- The text of the error. -/
def message : SolveError → String
  | unsatisfiable reasons =>
    "constraints are unsatisfiable: " ++ "; ".intercalate (reasons.map Reason.message)
  | unavailable cause => "solver unavailable: " ++ cause.message
  | timeout limit => s!"solver gave up after {limit} ms"
  | arithmetic e => e.message
  | malformed cause => "malformed solver output: " ++ cause.message
  | foreign slot => slot.message

/-- The error as shown to the user. -/
def diagnostic (e : SolveError) : Diagnostic :=
  match e with
  | unsatisfiable _ =>
    { message := e.message
      code := some "units::solve::unsat"
      help := some "the listed constraints cannot all hold for any assignment of units" }
  | unavailable _ => { message := e.message, code := some "units::solve::unavailable" }
  | timeout _ => { message := e.message, code := some "units::solve::timeout" }
  | arithmetic d => d.diagnostic
  | malformed _ => { message := e.message, code := some "units::solve::model" }
  | foreign _ => { message := e.message }

/-- Reports a slot that the model lacks as a failed solve. -/
def ofForeign {α : Type} : Except ForeignSlot α → Except SolveError α
  | .ok a => .ok a
  | .error slot => .error (.foreign slot)

end SolveError
end Metrology
