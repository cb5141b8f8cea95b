import Metrology.Dimensions
import Metrology.Qualifier

/-!
# Unit names

An alias table gives names to concrete units.  Names are kept in the order of
their registration, a taken name is not given away again, and of several names
for one unit the first is the one shown.
-/

namespace Metrology

/-- Names of concrete units in registration order. -/
structure AliasTable where
  entries : List (String × Monomial)
deriving DecidableEq

namespace AliasTable

/-- The table without names. -/
def empty : AliasTable := ⟨[]⟩

instance : Inhabited AliasTable := ⟨empty⟩

/-- The number of names. -/
def size (t : AliasTable) : Nat := t.entries.length

/-- The unit of a name. -/
def unit? (t : AliasTable) (name : String) : Option Monomial := t.entries.lookup name

/-- The first name of a unit. -/
def name? (t : AliasTable) (unit : Monomial) : Option String :=
  (t.entries.find? fun e => e.2 = unit).map Prod.fst

/-- Adds a name unless it is taken. -/
def insert (t : AliasTable) (name : String) (unit : Monomial) : AliasTable :=
  if (t.unit? name).isSome then t else ⟨t.entries ++ [(name, unit)]⟩

/-- Adds a name for a unit over the dimensions and says whether it was free. -/
def register (t : AliasTable) (dims : Dimensions) (name : String) (unit : Monomial) :
    Except ConfigError (Bool × AliasTable) :=
  match dims.undeclared? unit with
  | some dim => .error (.aliasDimension name dim)
  | none => .ok ((t.unit? name).isNone, t.insert name unit)

/-- The symbols for powers of ten in front of a base unit. -/
def scales : List (String × Exponent) :=
  [("G", .lit 9), ("M", .lit 6), ("k", .lit 3), ("h", .lit 2), ("c", .lit (-2)),
    ("m", .lit (-3)), ("u", .lit (-6)), ("n", .lit (-9))]

/-- Derived units by name, power of ten and exponents. -/
def derived : List (String × Exponent × List (String × Exponent)) :=
  [("mPERs", 0, [("m", 1), ("s", .lit (-1))]),
    ("mPERs2", 0, [("m", 1), ("s", .lit (-2))]),
    ("m2", 0, [("m", .lit 2)]),
    ("m3", 0, [("m", .lit 3)]),
    ("m3PERhr", 0, [("m", .lit 3), ("hr", .lit (-1))]),
    ("PERm2s2", 0, [("m", .lit (-2)), ("s", .lit (-2))]),
    ("Hz", 0, [("s", .lit (-1))]),
    ("N", .lit 3, [("g", 1), ("m", 1), ("s", .lit (-2))]),
    ("MJ", .lit 9, [("g", 1), ("m", .lit 2), ("s", .lit (-2))]),
    ("WPERm2K", .lit 3, [("g", 1), ("s", .lit (-3)), ("K", .lit (-1))]),
    ("kmol", .lit 3, [("mol", 1)])]

/-- The standard names over some dimensions, in the order in which they are added. -/
def standardEntries (dims : Dimensions) : List (String × Monomial) :=
  let bases := dims.names.map fun d => (d, Monomial.base d)
  let covered := derived.filter fun e => e.2.2.all fun x => dims.contains x.1
  let scaled := dims.names.flatMap fun d =>
    scales.map fun s => (s.1 ++ d, (Monomial.ofPower s.2).set d 1)
  ("Dimensionless", Monomial.one) :: bases ++
    covered.map (fun e => (e.1, Monomial.ofExponents e.2.1 e.2.2)) ++ scaled

/-- Adds the standard names that are still free. -/
def extendStandard (t : AliasTable) (dims : Dimensions) : AliasTable :=
  (standardEntries dims).foldl (fun t e => t.insert e.1 e.2) t

/-- The table of the standard names. -/
def standard (dims : Dimensions) : AliasTable := empty.extendStandard dims

end AliasTable

/-- How a qualifier is written in front of a declaration. -/
inductive Spelling where
  | top
  | bottom
  | poly
  | named (name : String)
  | raw (unit : Monomial)
deriving DecidableEq

namespace Spelling

/-- The spelling of a qualifier: the first name of a concrete unit, if it has one. -/
def ofQualifier (t : AliasTable) : Qualifier → Spelling
  | .top => top
  | .bottom => bottom
  | .poly => poly
  | .concrete m =>
    match t.name? m with
    | some name => named name
    | none => raw m

/-- The annotation text. -/
def render : Spelling → String
  | top => "@UnknownUnits"
  | bottom => "@UnitsBottom"
  | poly => "@PolyUnit"
  | named name => "@" ++ name
  | raw unit => s!"@UnitsRep({unit})"

instance : ToString Spelling := ⟨render⟩

end Spelling
end Metrology
