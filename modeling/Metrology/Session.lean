import Metrology.Linear.Solver
import Metrology.Manifest
import Metrology.Report
import Metrology.Smt.Script
import Metrology.Smt.Solver

/-!
# Sessions

A session fixes dimensions, names and tools before it reads a document.  It then
infers the units of the unknown slots, checks an assignment, writes the inputs of
both kinds of solver to files, or lists its lattice.
-/

namespace Metrology

/-- Choices that take precedence over the manifest. -/
structure Overrides where
  backend : Option Backend := none
  dimensions : List String := []
  timeoutMs : Option Nat := none
  tool : Option String := none
deriving DecidableEq

/-- The choices of a session. -/
structure Session extends Vocabulary where
  backend : Backend
  timeoutMs : Option Nat
  tool : Option String
  dumpDir : Option String

namespace Session

/-- The names of a session: those of the manifest, then the standard ones that are free. -/
def aliasTable (dims : Dimensions) (entries : List (String × Monomial)) :
    Except ConfigError AliasTable := do
  let own ← entries.foldlM
    (fun (t : AliasTable) e => do return (← t.register dims e.1 e.2).2) AliasTable.empty
  return own.extendStandard dims

/-- Fixes the choices of a session. -/
def configure (manifest : Manifest) (overrides : Overrides) : Except ConfigError Session := do
  let names := if overrides.dimensions.isEmpty then manifest.dimensions else overrides.dimensions
  let dimensions ← Dimensions.ofNames names
  let aliases ← aliasTable dimensions manifest.aliases
  return { dimensions, aliases
           backend := overrides.backend.getD manifest.backend
           timeoutMs := overrides.timeoutMs <|> manifest.timeoutMs
           tool := overrides.tool <|> manifest.tool
           dumpDir := manifest.dumpDir }

/-- The name of what solves linear systems. -/
def eliminatorName (s : Session) : String := s.tool.getD Linear.Eliminator.builtin.name

/-- The lattice of the qualifiers that the session names. -/
def lattice (s : Session) : Except ConfigError Lattice :=
  Lattice.build s.dimensions (s.aliases.entries.map Prod.snd)

/-- The report on the lattice. -/
def latticeReport (s : Session) : Except ConfigError LatticeReport :=
  s.lattice.map fun l => .ofLattice l s.aliases

variable {m : Type → Type} [Monad m]

/-- Writes systems into a directory; a file that cannot be written is left out. -/
def writeSystems (host : Host m) (dir : String) : List Linear.ComponentSystem → m Unit
  | [] => return ()
  | system :: rest => do
    let _ ← host.writeText (Path.join dir system.fileName) system.text
    writeSystems host dir rest

/-- Writes systems to the directory for them, if there is one and it can be made. -/
def dump (s : Session) (host : Host m) (systems : List Linear.ComponentSystem) : m Unit := do
  match s.dumpDir with
  | none => return ()
  | some dir =>
    match ← host.makeDirectories dir with
    | .error _ => return ()
    | .ok () => writeSystems host dir systems

/-- The answers to systems, by the session's program or the built-in eliminator. -/
def eliminate (s : Session) (host : Host m) (systems : List Linear.ComponentSystem) :
    m (List (Except SolveError String)) :=
  match s.tool with
  | none => return systems.map fun system => Linear.Eliminator.builtin.eliminate system.text
  | some program => systems.mapM fun system => host.eliminate program [] system.text

/-- Solves a model by elimination. -/
def solveLinear (s : Session) (host : Host m) (model : Model) : m (Except SolveError Solved) := do
  match Linear.Encoding.ofModel model model.components with
  | .error e => return .error e
  | .ok encoding =>
    s.dump host encoding.systems
    return encoding.finish model (← s.eliminate host encoding.systems)

/-- Solves a model by the backend of the session. -/
def solve (s : Session) (host : Host m) (model : Model) : m (Except SolveError Solved) :=
  match s.backend with
  | .smt => return Smt.solve Smt.Engine.none s.timeoutMs model
  | .linear => s.solveLinear host model

/-- The constraints of a model over its own slots that an assignment violates. -/
def violations (model : Model) (solution : Assignment) : List Violation :=
  match model.check solution with
  | .ok found => found
  | .error _ => []

/-- The units of the unknown slots in an assignment. -/
def slotReports (s : Session) (named : NamedModel) (solution : Assignment) : List SlotReport :=
  named.model.unknowns.filterMap fun v => (solution.get? v.1).map fun unit =>
    ⟨named.nameOf v.1, v.2, unit, .ofQualifier s.aliases unit⟩

/-- Infers the units of a document; a failed solve is part of the report. -/
def infer (s : Session) (host : Host m) (input : String) (named : NamedModel) : m InferReport := do
  let solved ← s.solve host named.model
  return { input, backend := s.backend
           outcome := solved.map fun found =>
             ⟨s.slotReports named found.solution, violations named.model found.solution,
               found.statistics⟩ }

/-- Checks an assignment for a document. -/
def check (input : String) (named : NamedModel) (solution : Assignment) : CheckReport where
  input
  constraints := named.model.constraints.size
  violations := violations named.model solution

/-- The file of the script for SMT solvers. -/
def scriptFile : String := "units.smt2"

/-- Why the inputs of the solvers could not be written. -/
inductive EmitError where
  | file (error : FileError)
  | solve (error : SolveError)

/-- The error as shown to the user. -/
def EmitError.diagnostic : EmitError → Diagnostic
  | file e => e.diagnostic
  | solve e => e.diagnostic

/-- A step of writing files. -/
abbrev Emit (m : Type → Type) := ExceptT EmitError m

/-- Writes a text to a file of a directory and gives its path. -/
def emitFile (host : Host m) (dir name text : String) : Emit m String := do
  let path := Path.join dir name
  match ← host.writeText path text with
  | .ok () => return path
  | .error e => throw (.file e)

/-- A result of encoding a model, with its failure as a failed step. -/
def encoded {α : Type} (r : Except SolveError α) : Emit m α :=
  match r with
  | .ok a => return a
  | .error e => throw (.solve e)

/-- Writes the script and every linear system of a document into a directory. -/
def emit (host : Host m) (named : NamedModel) (dir : String) : Emit m (List String) := do
  match ← host.makeDirectories dir with
  | .error e => throw (.file e)
  | .ok () =>
    let model := named.model
    let problem ← encoded (Smt.Problem.ofModel model model.components)
    let script ← emitFile host dir scriptFile problem.script
    let encoding ← encoded (Linear.Encoding.ofModel model model.components)
    let systems ← encoding.systems.mapM fun s => emitFile host dir s.fileName s.text
    return script :: systems

end Session
end Metrology
