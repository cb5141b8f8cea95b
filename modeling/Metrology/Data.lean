import Metrology.Monomial

/-!
# Structured data

The values that documents and manifests are made of, whatever text format they
were written in, and how the parts of a value are read.  Nothing reads a date or
a number with a fraction, so these are kept only as what they are.
-/

namespace Metrology

/-- A value of a structured text. -/
inductive Data where
  | null
  | bool (b : Bool)
  | int (n : Int)
  /-- A number that is not written as an integer. -/
  | float
  /-- A date, a time or both. -/
  | date
  | text (s : String)
  | list (items : List Data)
  /-- Named values as they were written, repeated names included. -/
  | record (fields : List (String × Data))

namespace Data

instance : Inhabited Data := ⟨null⟩

/-- The value of a text. -/
def text? : Data → Option String
  | text s => some s
  | _ => none

/-- The value of a truth value. -/
def bool? : Data → Option Bool
  | bool b => some b
  | _ => none

/-- The items of a list. -/
def list? : Data → Option (List Data)
  | list items => some items
  | _ => none

/-- A list of texts. -/
def texts? (d : Data) : Option (List String) := d.list? >>= List.mapM text?

/-- A natural number of so many bits. -/
def natOfBits? (bits : Nat) : Data → Option Nat
  | int n => if 0 ≤ n ∧ n < Nat.pow 2 bits then some n.toNat else none
  | _ => none

/-- An exponent. -/
def exponent? : Data → Option Exponent
  | int n => Exponent.ofInt? n
  | _ => none

/-- A map from names to values; the last of repeated names counts. -/
def map? {α : Type} (read : Data → Option α) : Data → Option (SortedMap String α)
  | record fields => do
    let entries ← fields.mapM fun f => do return (f.1, ← read f.2)
    return SortedMap.ofList entries
  | _ => none

/-- Whether a name is given more than once. -/
def isRepeated (fields : List (String × Data)) (name : String) : Bool :=
  1 < (fields.filter fun f => f.1 == name).length

/-- What becomes of values that a structure has no place for. -/
inductive Excess where
  | refused
  | ignored
deriving DecidableEq

/-- The values of a structure's fields, absent ones as `none`.  A structure is a record, in
which no field is repeated, or the list of its fields in order, from the end of which fields may
be missing.  A record may hold `unknown` names and a list `surplus` items.  A date is a record
of parts that no structure knows. -/
def fields? (names : List String) (unknown surplus : Excess) : Data → Option (List (Option Data))
  | record fields =>
    if unknown = .refused && fields.any (fun f => !names.contains f.1) then none
    else if names.any (isRepeated fields) then none
    else some (names.map fun name => fields.lookup name)
  | date => if unknown = .refused then none else some (names.map fun _ => none)
  | list items =>
    if surplus = .refused && names.length < items.length then none
    else
      some ((items.take names.length).map some ++
        List.replicate (names.length - items.length) none)
  | _ => none

/-- A field that must be given. -/
def required? {α : Type} (read : Data → Option α) (field : Option Data) : Option α :=
  field >>= read

/-- A field with a default. -/
def withDefault? {α : Type} (default : α) (read : Data → Option α) : Option Data → Option α
  | none => some default
  | some d => read d

/-- A field that may be absent or null. -/
def optional? {α : Type} (read : Data → Option α) : Option Data → Option (Option α)
  | none => some none
  | some null => some none
  | some d => (read d).map some

/-- A concrete unit: a power of ten and exponents by dimension, both optional. -/
def monomial? (surplus : Excess) (d : Data) : Option Monomial := do
  match ← d.fields? ["prefix", "exponents"] .ignored surplus with
  | [power, exponents] =>
    let power ← withDefault? 0 exponent? power
    let exponents ← withDefault? SortedMap.empty (map? exponent?) exponents
    return Monomial.ofExponents power exponents.entries
  | _ => none

end Data
end Metrology
