import Metrology.Exponent
import Metrology.SortedMap

/-!
# Concrete units

A concrete unit is a monomial: a power of ten times a product of powers of base
dimensions.  Only dimensions with a nonzero exponent are kept, in name order, so
two monomials are equal exactly when they denote the same unit.
-/

namespace Metrology

/-- A power of ten times powers of named base dimensions. -/
structure Monomial where
  power : Exponent
  exponents : SortedMap String Exponent
  nonzero : ∀ e ∈ exponents.entries, e.2 ≠ 0
deriving DecidableEq

namespace Monomial

/-- A bare power of ten. -/
def ofPower (p : Exponent) : Monomial := ⟨p, SortedMap.empty, by simp [SortedMap.empty]⟩

/-- The unit of plain numbers. -/
def one : Monomial := ofPower 0

instance : Inhabited Monomial := ⟨one⟩

/-- The exponent of a dimension, zero for those that do not occur. -/
def exponent (m : Monomial) (dim : String) : Exponent := (m.exponents.get? dim).getD 0

/-- The dimensions that occur, in name order. -/
def dimensions (m : Monomial) : List String := m.exponents.keys

/-- Whether no dimension occurs; the power of ten is free. -/
def isDimensionless (m : Monomial) : Bool := m.exponents.isEmpty

/-- The monomial with the exponent of `dim` replaced. -/
def set (m : Monomial) (dim : String) (e : Exponent) : Monomial :=
  if h : e = 0 then
    ⟨m.power, m.exponents.erase dim, fun d hd => m.nonzero d (List.mem_filter.1 hd).1⟩
  else
    ⟨m.power, m.exponents.insert dim e, fun d hd => by
      rcases SortedMap.mem_insertEntry hd with rfl | hd
      · exact h
      · exact m.nonzero d hd⟩

/-- The monomial with its power of ten replaced. -/
def setPower (m : Monomial) (p : Exponent) : Monomial := { m with power := p }

/-- A base dimension to the first power. -/
def base (dim : String) : Monomial := one.set dim 1

/-- The monomial with a power of ten and a list of exponents, of which the last of each
dimension counts. -/
def ofExponents (p : Exponent) (es : List (String × Exponent)) : Monomial :=
  es.foldl (fun m e => m.set e.1 e.2) (ofPower p)

/-- The first dimension that `known` does not list. -/
def undeclared? (m : Monomial) (known : List String) : Option String :=
  m.dimensions.find? fun d => !known.contains d

/-- Combines two monomials exponent by exponent, unless an exact result is out of range. -/
def combine? (op : Int → Int → Int) (a b : Monomial) : Option Monomial := do
  let p ← Exponent.ofInt? (op a.power.val b.power.val)
  b.exponents.entries.foldlM
    (fun acc e => do
      let x ← Exponent.ofInt? (op (a.exponent e.1).val e.2.val)
      pure (acc.set e.1 x))
    (a.setPower p)

/-- The product, if every exponent of it is in range. -/
def mul? (a b : Monomial) : Option Monomial := combine? (· + ·) a b

/-- The quotient, if every exponent of it is in range. -/
def div? (a b : Monomial) : Option Monomial := combine? (· - ·) a b

/-- One factor of a monomial as text. -/
def renderFactor (e : String × Exponent) : String :=
  if e.2 = 1 then e.1 else s!"{e.1}{e.2}"

/-- The factors joined by dots, and `1` if there are none. -/
def render (m : Monomial) : String :=
  let scale := if m.power = 0 then [] else [s!"10^{m.power}"]
  match scale ++ m.exponents.entries.map renderFactor with
  | [] => "1"
  | factors => ".".intercalate factors

instance : ToString Monomial := ⟨render⟩

/-- Lexicographic comparison of exponent lists; a list precedes its extensions. -/
def compareExponents : List (String × Exponent) → List (String × Exponent) → Ordering
  | [], [] => .eq
  | [], _ :: _ => .lt
  | _ :: _, [] => .gt
  | a :: as, b :: bs =>
    (compare a.1 b.1).then ((compare a.2 b.2).then (compareExponents as bs))

instance : Ord Monomial :=
  ⟨fun a b =>
    (compare a.power b.power).then (compareExponents a.exponents.entries b.exponents.entries)⟩

end Monomial
end Metrology
