import Metrology.Data

/-!
# Tables under construction

A TOML document and an inline table are built key by key.  A table can be stated
by a header, implied by the header of a table inside it, or made by a dotted key,
and what may still be added to it depends on which of these it is.
-/

namespace Metrology
namespace Toml

/-- How a table came to be. -/
inductive Form where
  /-- By its own header or braces. -/
  | stated
  /-- By a header of something inside it. -/
  | implied
  /-- By a dotted key. -/
  | dotted
deriving DecidableEq

/-- What a key stands for. -/
inductive Node where
  | value (d : Data)
  | table (form : Form) (entries : List (String × Node))
  /-- Tables with one header: the finished ones and the entries of the last one. -/
  | tables (finished : List Data) (last : List (String × Node))

/-- The keys of a table in the order in which they appeared. -/
abbrev Entries := List (String × Node)

mutual

/-- The value of a finished node. -/
def Node.data : Node → Data
  | .value d => d
  | .table _ entries => .record (fieldsOf entries)
  | .tables finished last => .list (finished ++ [.record (fieldsOf last)])

/-- The values of finished entries. -/
def fieldsOf : List (String × Node) → List (String × Data)
  | [] => []
  | (key, node) :: entries => (key, node.data) :: fieldsOf entries

end

namespace Entries

/-- Changes what a key stands for, adding the key if it is new. -/
def alter (key : String) (f : Option Node → Option Node) : Entries → Option Entries
  | [] => (f none).map fun node => [(key, node)]
  | (k, node) :: entries =>
    if k = key then (f (some node)).map fun node => (k, node) :: entries
    else (alter key f entries).map ((k, node) :: ·)

/-- Changes the entries of the table that a path leads to from a table of form `form`.
Tables that are missing on the way are made with form `new`; a dotted key does not lead into
a stated table. -/
def modifyAt (new : Form) (f : Form → Entries → Option Entries) :
    (form : Form) → (path : List String) → Entries → Option Entries
  | form, [], entries => f form entries
  | _, key :: path, entries =>
    entries.alter key fun
      | none => (modifyAt new f new path []).map (.table new)
      | some (.value _) => none
      | some (.tables finished last) => (modifyAt new f .stated path last).map (.tables finished)
      | some (.table form inner) =>
        if new = .dotted ∧ form = .stated then none
        else (modifyAt new f form path inner).map (.table form)

/-- Adds a key of a table.  Only a dotted key adds to a table made by dotted keys. -/
def insert (path : List String) (key : String) (value : Data) (form : Form) :
    Entries → Option Entries :=
  modifyAt .dotted (fun form entries =>
    if decide (form = .dotted) = path.isEmpty then none
    else entries.alter key fun
      | none => some (.value value)
      | some _ => none) form path

/-- States a table by its header. -/
def stateTable (path : List String) (key : String) : Entries → Option Entries :=
  modifyAt .implied (fun _ entries => entries.alter key fun
    | none => some (.table .stated [])
    | some (.table .implied inner) => some (.table .stated inner)
    | some _ => none) .stated path

/-- Starts another of the tables with one header. -/
def addTable (path : List String) (key : String) : Entries → Option Entries :=
  modifyAt .implied (fun _ entries => entries.alter key fun
    | none => some (.tables [] [])
    | some (.tables finished last) => some (.tables (finished ++ [.record (fieldsOf last)]) [])
    | some _ => none) .stated path

/-- Adds a key to the table that was stated last. -/
def insertUnder (header path : List String) (key : String) (value : Data) :
    Entries → Option Entries :=
  modifyAt .implied (fun form entries => insert path key value form entries) .stated header

end Entries
end Toml
end Metrology
