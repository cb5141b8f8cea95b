import Metrology.Qualifier

/-!
# Constraints

A constraint relates two or three units.  The type is generic in what stands for
a unit: slot numbers in a model, slots while a model is read, qualifiers once an
assignment has been applied.
-/

namespace Metrology

/-- A relation between units. -/
inductive Constraint (α : Type) where
  /-- The first is below the second. -/
  | subtype (sub sup : α)
  /-- Both are the same. -/
  | equal (lhs rhs : α)
  /-- The result is the join of the operands. -/
  | join (lhs rhs result : α)
  /-- The result is the product of the operands. -/
  | product (lhs rhs result : α)
  /-- The result is the quotient of the operands. -/
  | quotient (lhs rhs result : α)
deriving DecidableEq

namespace Constraint

variable {α β : Type}

/-- The related things: operands first, then the result. -/
def slots : Constraint α → List α
  | subtype a b | equal a b => [a, b]
  | join a b r | product a b r | quotient a b r => [a, b, r]

/-- The kind of a constraint as it is written in documents. -/
def kind : Constraint α → String
  | subtype .. => "subtype"
  | equal .. => "equal"
  | join .. => "lub"
  | product .. => "product"
  | quotient .. => "quotient"

/-- The constraint with everything it relates changed by `f`. -/
def map (f : α → β) : Constraint α → Constraint β
  | subtype a b => subtype (f a) (f b)
  | equal a b => equal (f a) (f b)
  | join a b r => join (f a) (f b) (f r)
  | product a b r => product (f a) (f b) (f r)
  | quotient a b r => quotient (f a) (f b) (f r)

/-- Changes everything a constraint relates, in order, up to the first failure. -/
def mapExcept {ε : Type} (f : α → Except ε β) : Constraint α → Except ε (Constraint β)
  | subtype a b => do return subtype (← f a) (← f b)
  | equal a b => do return equal (← f a) (← f b)
  | join a b r => do return join (← f a) (← f b) (← f r)
  | product a b r => do return product (← f a) (← f b) (← f r)
  | quotient a b r => do return quotient (← f a) (← f b) (← f r)

/-- The text of a constraint between numbered slots. -/
def render : Constraint Nat → String
  | subtype a b => s!"#{a} <: #{b}"
  | equal a b => s!"#{a} == #{b}"
  | join a b r => s!"#{r} = lub(#{a}, #{b})"
  | product a b r => s!"#{r} = #{a} * #{b}"
  | quotient a b r => s!"#{r} = #{a} / #{b}"

instance : ToString (Constraint Nat) := ⟨render⟩

/-- Whether units satisfy a constraint. -/
def Holds : Constraint Qualifier → Prop
  | subtype a b => a ≤ b
  | equal a b => a = b
  | join a b r => a.join b = r
  | product a b r => a.mul b = r
  | quotient a b r => a.div b = .ok r

end Constraint
end Metrology
