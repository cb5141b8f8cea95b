import Metrology.Data.Toml.Table
import Metrology.Data.Toml.Token

/-!
# TOML

A reader for TOML 1.0 documents.  A document is read as its statements, which
then build its tables one after the other.
-/

namespace Metrology
namespace Toml

open Scan

/-- The deepest nesting of lists and inline tables. -/
def maxDepth : Nat := 79

/-- The items of a list up to its closing bracket, at most as many as `fuel`; a comma may
follow the last one. -/
def itemsUpTo (value : Scan Data) : (fuel : Nat) → Scan (List Data)
  | 0 => failure
  | fuel + 1 => do
    gap
    if ← accept ']' then return []
    let item ← value
    gap
    if ← accept ',' then return item :: (← itemsUpTo value fuel)
    expect ']'
    return [item]

/-- A list of values. -/
def list (value : Scan Data) : Scan Data := do
  expect '['
  return .list (← itemsUpTo value ((← get).length + 1))

/-- A key and its value. -/
def keyValue (value : Scan Data) : Scan ((List String × String) × Data) := do
  let key ← key
  expect '='
  space
  return (key, ← value)

/-- A table of one line. -/
def inlineTable (value : Scan Data) : Scan Data := do
  expect '\x7b'
  space
  if ← accept '\x7d' then return .record []
  let pairs ← separatedBy ',' (keyValue value <* space)
  expect '\x7d'
  let entries ← StateT.lift <| pairs.foldlM
    (fun entries (pair : (List String × String) × Data) =>
      Entries.insert pair.1.1 pair.1.2 pair.2 .stated entries) []
  return .record (fieldsOf entries)

/-- A value with at most `depth` levels of nesting. -/
def value : (depth : Nat) → Scan Data
  | 0 => scalar
  | depth + 1 => scalar <|> list (value depth) <|> inlineTable (value depth)

/-- What a line of a document says. -/
inductive Statement where
  | entry (path : List String) (key : String) (value : Data)
  | table (path : List String) (key : String)
  | anotherTable (path : List String) (key : String)

/-- A statement. -/
def statement : Scan Statement := do
  match ← get with
  | '[' :: '[' :: _ =>
    word "[["
    let (path, key) ← key
    word "]]"
    return .anotherTable path key
  | '[' :: _ =>
    expect '['
    let (path, key) ← key
    expect ']'
    return .table path key
  | _ =>
    let ((path, key), value) ← keyValue (value maxDepth)
    return .entry path key value

/-- The statements of a document, at most as many lines as `fuel`. -/
def statementsUpTo : (fuel : Nat) → Scan (List Statement)
  | 0 => return []
  | fuel + 1 => do
    space
    match ← peek with
    | none => return []
    | some '#' | some '\n' | some '\r' =>
      lineRest
      statementsUpTo fuel
    | some _ =>
      let found ← statement
      lineRest
      return found :: (← statementsUpTo fuel)

/-- The statements of a document, which a byte order mark may precede. -/
def statements : Scan (List Statement) := do
  let _ ← accept '\uFEFF'
  statementsUpTo ((← get).length + 1)

/-- The tables that have been built and the path of the one stated last. -/
structure Builder where
  header : List String
  root : Entries

/-- What a statement adds. -/
def Builder.step (b : Builder) : Statement → Option Builder
  | .entry path key value =>
    (b.root.insertUnder b.header path key value).map fun root => { b with root }
  | .table path key => (b.root.stateTable path key).map fun root => ⟨path ++ [key], root⟩
  | .anotherTable path key => (b.root.addTable path key).map fun root => ⟨path ++ [key], root⟩

/-- The record that a document holds. -/
def read? (text : String) : Option Data := do
  let found ← statements.whole? text
  let built ← found.foldlM Builder.step ⟨[], []⟩
  return .record (fieldsOf built.root)

end Toml
end Metrology
