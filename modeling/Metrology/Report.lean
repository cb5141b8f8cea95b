import Metrology.Data.Json
import Metrology.Document
import Metrology.Lattice
import Metrology.Model.Check
import Metrology.Solve.Backend

/-!
# Reports

What a session tells about an inference, a check or its lattice, as text and as
structured data.
-/

namespace Metrology

/-- A report that can be shown in both forms. -/
class Report (α : Type) where
  /-- The report as lines of text. -/
  text : α → String
  /-- The report as structured data. -/
  data : α → Data

/-- Lines of text, each with its end. -/
def unlines (lines : List String) : String := String.join (lines.map (· ++ "\n"))

namespace Violation

/-- The constraint of a violation in messages. -/
def subject (v : Violation) : String := v.constraint.render

/-- A violation as data. -/
def data (v : Violation) : Data :=
  .record [("constraint", .text v.subject), ("message", .text v.fault.message)]

end Violation

/-- The unit that was found for a slot. -/
structure SlotReport where
  name : String
  location : String
  unit : Qualifier
  spelling : Spelling
deriving DecidableEq

namespace SlotReport

/-- The line of a slot. -/
def line (s : SlotReport) : String := s!"{s.location} ({s.name}): {s.spelling}"

/-- A slot as data. -/
def data (s : SlotReport) : Data :=
  .record [("name", .text s.name), ("location", .text s.location),
    ("unit", .text s.unit.render), ("surface", .text s.spelling.render)]

end SlotReport

namespace Statistics

/-- The line of the statistics. -/
def line (s : Statistics) : String :=
  s!"solved {s.unknowns} variable(s) with {s.backend} in {s.solvingMs} ms " ++
    s!"({s.serializationMs} ms serialization)"

/-- The statistics as data. -/
def data (s : Statistics) : Data :=
  .record [("backend", .text s.backend.name), ("serialization_ms", .int s.serializationMs),
    ("solving_ms", .int s.solvingMs), ("variables", .int s.unknowns),
    ("equations", .int s.equations), ("soft", .int s.soft), ("groups", .int s.groups)]

end Statistics

/-- The units that a solve found and the constraints that they violate. -/
structure Inferred where
  slots : List SlotReport
  violations : List Violation
  statistics : Statistics
deriving DecidableEq

/-- The outcome of an inference over the document called `input`. -/
structure InferReport where
  input : String
  backend : Backend
  outcome : Except SolveError Inferred

namespace InferReport

/-- Whether units were found that satisfy all constraints. -/
def ok (r : InferReport) : Bool :=
  match r.outcome with
  | .ok found => found.violations.isEmpty
  | .error _ => false

/-- The lines of the report. -/
def lines (r : InferReport) : List String :=
  match r.outcome with
  | .error e =>
    let text := e.message
    [s!"{r.input}: could not infer units ({r.backend}): {text}"]
  | .ok found =>
    found.slots.map SlotReport.line ++
      found.violations.map (fun v =>
        "warning: solution violates " ++ v.subject ++ ": " ++ v.fault.message) ++
      [found.statistics.line]

/-- The fields of the report; violations are left out if there are none. -/
def fields (r : InferReport) : List (String × Data) :=
  [("schema", .text "units-infer.infer.v1"), ("input", .text r.input), ("ok", .bool r.ok),
    ("backend", .text r.backend.name)] ++
  match r.outcome with
  | .error e => [("error", .text e.message), ("slots", .list [])]
  | .ok found =>
    [("slots", .list (found.slots.map SlotReport.data))] ++
      (if found.violations.isEmpty then []
        else [("violations", .list (found.violations.map Violation.data))]) ++
      [("statistics", found.statistics.data)]

instance : Report InferReport where
  text r := unlines r.lines
  data r := .record r.fields

end InferReport

/-- The constraints of the document called `input` that an assignment violates. -/
structure CheckReport where
  input : String
  constraints : Nat
  violations : List Violation
deriving DecidableEq

namespace CheckReport

/-- Whether all constraints hold. -/
def ok (r : CheckReport) : Bool := r.violations.isEmpty

/-- The lines of the report. -/
def lines (r : CheckReport) : List String :=
  r.violations.map (fun v => r.input ++ ": violated " ++ v.subject ++ ": " ++ v.fault.message) ++
    [s!"{r.input}: {r.constraints} constraint(s), {r.violations.length} violated"]

instance : Report CheckReport where
  text r := unlines r.lines
  data r := .record [("schema", .text "units-infer.check.v1"), ("input", .text r.input),
    ("ok", .bool r.ok), ("constraints", .int r.constraints),
    ("violations", .list (r.violations.map Violation.data))]

end CheckReport

/-- A qualifier with its spelling and those of the qualifiers above it. -/
structure QualifierReport where
  unit : Qualifier
  spelling : Spelling
  supertypes : List Spelling
deriving DecidableEq

namespace QualifierReport

/-- The line of a qualifier. -/
def line (q : QualifierReport) : String :=
  if q.supertypes.isEmpty then q.spelling.render
  else q.spelling.render ++ " <: " ++ ", ".intercalate (q.supertypes.map Spelling.render)

/-- A qualifier as data. -/
def data (q : QualifierReport) : Data :=
  .record [("unit", .text q.unit.render), ("surface", .text q.spelling.render),
    ("supertypes", .list (q.supertypes.map fun s => .text s.render))]

end QualifierReport

/-- The qualifiers over some dimensions. -/
structure LatticeReport where
  dimensions : List String
  qualifiers : List QualifierReport
deriving DecidableEq

namespace LatticeReport

/-- The report on a lattice whose units are spelled by some names. -/
def ofLattice (lattice : Lattice) (aliases : AliasTable) : LatticeReport where
  dimensions := lattice.dimensions.names
  qualifiers := lattice.qualifiers.map fun q =>
    ⟨q, .ofQualifier aliases q,
      (lattice.supertypesOf q).map (Spelling.ofQualifier aliases)⟩

instance : Report LatticeReport where
  text r :=
    unlines (("dimensions: [" ++ ", ".intercalate r.dimensions ++ "]") ::
      r.qualifiers.map QualifierReport.line)
  data r := .record [("schema", .text "units-infer.lattice.v1"),
    ("dimensions", .list (r.dimensions.map .text)),
    ("qualifiers", .list (r.qualifiers.map QualifierReport.data))]

end LatticeReport
end Metrology
