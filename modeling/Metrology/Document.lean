import Metrology.Alias
import Metrology.Data.Json
import Metrology.Model

/-!
# Constraint documents

A document declares named slots and the constraints between them.  Units are
written as one of the special words, as a name of the session or as a power of
ten with exponents.  Building a document checks every name and gives a model whose
slots are numbered in the order of their declaration.
-/

namespace Metrology

/-- A unit as a document writes it. -/
inductive WrittenUnit where
  | named (name : String)
  | monomial (unit : Monomial)
deriving DecidableEq

/-- The declaration of a slot. -/
structure SlotDecl where
  name : String
  location : Option String := none
  constant : Option WrittenUnit := none
deriving DecidableEq

/-- What a constraint of a document says of its slots. -/
inductive RelationKind where
  | subtype | equal | join | product | quotient
deriving DecidableEq

namespace RelationKind

/-- The relation with a given keyword. -/
def ofKeyword? : String → Option RelationKind
  | "subtype" => some subtype
  | "equal" => some equal
  | "lub" => some join
  | "product" => some product
  | "quotient" => some quotient
  | _ => none

/-- The name of a relation in messages. -/
def title : RelationKind → String
  | subtype => "Subtype"
  | equal => "Equal"
  | join => "Lub"
  | product => "Product"
  | quotient => "Quotient"

instance : ToString RelationKind := ⟨title⟩

end RelationKind

/-- The declaration of a constraint. -/
structure ConstraintDecl where
  kind : RelationKind
  lhs : String
  rhs : String
  result : Option String := none
deriving DecidableEq

/-- Declared slots and constraints. -/
structure Document where
  slots : List SlotDecl := []
  constraints : List ConstraintDecl := []
deriving DecidableEq

/-- What can be wrong with a document or with an assignment for it. -/
inductive DocumentError where
  | invalidJson
  | invalidSolution
  | unreadable (path error : String)
  | inFile (path : String) (cause : DocumentError)
  | unknownUnit (name : String)
  | undeclaredDimension (unit : Monomial) (dim : String)
  | repeatedSlot (name : String)
  | locatedConstant (name : String)
  | unknownSlot (name : String)
  | superfluousResult (index : Nat) (kind : RelationKind)
  | missingResult (index : Nat) (kind : RelationKind)
  | unknownAssigned (name : String)
  | constantAssigned (name : String)
  | rawAssigned (name : String)

namespace DocumentError

/-- What is wrong, without the heading. -/
def detail : DocumentError → String
  | invalidJson => "invalid JSON"
  | invalidSolution => "invalid solution"
  | unreadable path error => s!"failed to read {path}: {error}"
  | inFile path cause => path ++ ": " ++ cause.detail
  | unknownUnit name => s!"unknown unit `{name}`"
  | undeclaredDimension unit dim =>
    s!"unit {unit} uses `{dim}`, which is not a configured base dimension"
  | repeatedSlot name => s!"slot `{name}` is declared twice"
  | locatedConstant name => s!"slot `{name}` has both a location and a constant"
  | unknownSlot name => s!"constraint names unknown slot `{name}`"
  | superfluousResult index kind => s!"constraint {index} ({kind}) takes no result"
  | missingResult index kind => s!"constraint {index} ({kind}) needs a result slot"
  | unknownAssigned name => s!"solution names unknown slot `{name}`"
  | constantAssigned name => s!"slot `{name}` is a constant and cannot be assigned"
  | rawAssigned name => s!"slot `{name}` cannot be assigned the raw marker"

/-- The text of the error. -/
def message (e : DocumentError) : String := "constraint file error: " ++ e.detail

/-- The error as shown to the user. -/
def diagnostic (e : DocumentError) : Diagnostic where
  message := e.message
  code := some "units::input"

end DocumentError

/-! ### Reading -/

/-- Reads a unit. -/
def WrittenUnit.ofData? (d : Data) : Option WrittenUnit :=
  match d with
  | .text name => some (named name)
  | _ => (d.monomial? .refused).map monomial

/-- Reads a slot declaration. -/
def SlotDecl.ofData? (d : Data) : Option SlotDecl := do
  match ← d.fields? ["name", "location", "constant"] .refused .refused with
  | [name, location, constant] =>
    return { name := ← Data.required? Data.text? name
             location := ← Data.optional? Data.text? location
             constant := ← Data.optional? WrittenUnit.ofData? constant }
  | _ => none

/-- Reads a relation: its keyword, or a record with the keyword as its only name. -/
def RelationKind.ofData? : Data → Option RelationKind
  | .text keyword => ofKeyword? keyword
  | .record [(keyword, .null)] => ofKeyword? keyword
  | _ => none

/-- Reads a constraint declaration. -/
def ConstraintDecl.ofData? (d : Data) : Option ConstraintDecl := do
  match ← d.fields? ["kind", "lhs", "rhs", "result"] .refused .refused with
  | [kind, lhs, rhs, result] =>
    return { kind := ← Data.required? RelationKind.ofData? kind
             lhs := ← Data.required? Data.text? lhs
             rhs := ← Data.required? Data.text? rhs
             result := ← Data.optional? Data.text? result }
  | _ => none

namespace Document

/-- Reads a list of declarations. -/
def declarations? {α : Type} (read : Data → Option α) (d : Data) : Option (List α) :=
  d.list? >>= List.mapM read

/-- Reads the value of a document. -/
def ofData? (d : Data) : Option Document := do
  match ← d.fields? ["slots", "constraints"] .refused .refused with
  | [slots, constraints] =>
    return { slots := ← Data.withDefault? [] (declarations? SlotDecl.ofData?) slots
             constraints :=
               ← Data.withDefault? [] (declarations? ConstraintDecl.ofData?) constraints }
  | _ => none

/-- Reads the text of a document. -/
def read (text : String) : Except DocumentError Document :=
  match Json.read? text >>= ofData? with
  | some doc => .ok doc
  | none => .error .invalidJson

end Document

/-! ### Building -/

/-- What a unit is written in terms of. -/
structure Vocabulary where
  dimensions : Dimensions
  aliases : AliasTable

namespace Vocabulary

/-- A concrete unit over the dimensions of the vocabulary. -/
def concrete (v : Vocabulary) (unit : Monomial) : Except DocumentError (Option Qualifier) :=
  match v.dimensions.undeclared? unit with
  | some dim => .error (.undeclaredDimension unit dim)
  | none => .ok (some (.concrete unit))

/-- The qualifier that is written, or `none` for the marker of an unresolved annotation. -/
def resolve (v : Vocabulary) : WrittenUnit → Except DocumentError (Option Qualifier)
  | .named "top" => .ok (some .top)
  | .named "bottom" => .ok (some .bottom)
  | .named "polymorphic" => .ok (some .poly)
  | .named "raw" => .ok none
  | .named name =>
    match v.aliases.unit? name with
    | some unit => v.concrete unit
    | none => .error (.unknownUnit name)
  | .monomial unit => v.concrete unit

/-- The slot of a declaration; without a location an unknown is located at its name, and an
unresolved annotation counts as dimensionless. -/
def slotOf (v : Vocabulary) (d : SlotDecl) : Except DocumentError Slot :=
  match d.location, d.constant with
  | some _, some _ => .error (.locatedConstant d.name)
  | none, some unit => (v.resolve unit).map fun q => .constant (q.getD .dimensionless)
  | some location, none => .ok (.unknown location)
  | none, none => .ok (.unknown d.name)

/-- The slots of declarations that follow the slots with names `before`. -/
def slotsOf (v : Vocabulary) (before : List String) :
    List SlotDecl → Except DocumentError (List Slot)
  | [] => .ok []
  | d :: rest =>
    if d.name ∈ before then .error (.repeatedSlot d.name)
    else do
      let slot ← v.slotOf d
      return slot :: (← v.slotsOf (before ++ [d.name]) rest)

end Vocabulary

/-- The number of the slot with a name, where `number?` has those of the declared slots. -/
def slotNumber (number? : String → Option SlotId) (name : String) :
    Except DocumentError SlotId :=
  match number? name with
  | some id => .ok id
  | none => .error (.unknownSlot name)

/-- The constraint that a declaration states, which is the `index`-th of its document. -/
def ConstraintDecl.resolve (number? : String → Option SlotId) (d : ConstraintDecl)
    (index : Nat) : Except DocumentError (Constraint SlotId) := do
  let lhs ← slotNumber number? d.lhs
  let rhs ← slotNumber number? d.rhs
  match d.kind, d.result with
  | .subtype, none => return .subtype lhs rhs
  | .equal, none => return .equal lhs rhs
  | .join, some r => return .join lhs rhs (← slotNumber number? r)
  | .product, some r => return .product lhs rhs (← slotNumber number? r)
  | .quotient, some r => return .quotient lhs rhs (← slotNumber number? r)
  | kind, some _ => throw (.superfluousResult index kind)
  | kind, none => throw (.missingResult index kind)

/-- A model with the names of its slots. -/
structure NamedModel where
  model : Model
  names : List String

namespace NamedModel

/-- The name of a slot. -/
def nameOf (m : NamedModel) (id : SlotId) : String := m.names.getD id ""

/-- The slot with a name. -/
def slotNamed? (m : NamedModel) (name : String) : Option SlotId := m.names.idxOf? name

/-- The slots with their names and numbers. -/
def slots (m : NamedModel) : List (String × SlotId × Slot) :=
  m.model.numbered.map fun e => (m.nameOf e.1, e)

/-- Checks one line of an assignment. -/
def assigned (m : NamedModel) (v : Vocabulary) (line : String × WrittenUnit) :
    Except DocumentError (SlotId × Qualifier) :=
  match m.slotNamed? line.1 with
  | none => .error (.unknownAssigned line.1)
  | some id =>
    match m.model.slots[id]? with
    | some (.constant _) => .error (.constantAssigned line.1)
    | _ => do
      match ← v.resolve line.2 with
      | some unit => return (id, unit)
      | none => throw (.rawAssigned line.1)

/-- Reads an assignment of units to the unknown slots by name. -/
def readAssignment (m : NamedModel) (v : Vocabulary) (text : String) :
    Except DocumentError Assignment :=
  match Json.read? text >>= Data.map? WrittenUnit.ofData? with
  | none => .error .invalidSolution
  | some lines => do return SortedMap.ofList (← lines.entries.mapM (m.assigned v))

end NamedModel

/-- Builds the model of a document. -/
def Document.build (doc : Document) (v : Vocabulary) : Except DocumentError NamedModel := do
  let slots ← v.slotsOf [] doc.slots
  let names := doc.slots.map SlotDecl.name
  let constraints ← doc.constraints.zipIdx.mapM fun d => d.1.resolve names.idxOf? d.2
  return ⟨⟨slots.toArray, constraints.toArray⟩, names⟩

end Metrology
