import Metrology.Solve.Error

/-!
# Categories of unknowns

The top and the bottom never enter a linear system.  They spread through the
constraints first, until every unknown that a constraint forces to one of them
has its category.
-/

namespace Metrology
namespace Linear

/-- The categories found for unknowns. -/
abbrev Categories := SortedMap SlotId Category

namespace Categories

/-- The category of an operand: a constant's own, or the one found for an unknown. -/
def of (k : Categories) (o : Operand) : Option Category :=
  match o.slot with
  | .constant .top | .constant .poly => some .top
  | .constant .bottom => some .bottom
  | .constant (.concrete _) => none
  | .unknown _ => k.get? o.id

/-- Whether an operand is at the top. -/
def isTop (k : Categories) (o : Operand) : Bool := k.of o == some .top

/-- Whether an operand is at the bottom. -/
def isBottom (k : Categories) (o : Operand) : Bool := k.of o == some .bottom

/-- What two equal operands pass to each other. -/
def shared (k : Categories) (a b : Operand) : List (Operand × Category) :=
  ((k.of a).map fun c => (b, c)).toList ++ ((k.of b).map fun c => (a, c)).toList

/-- The categories that a constraint forces on its operands. -/
def forced (k : Categories) : Constraint Operand → List (Operand × Category)
  | .equal lhs rhs => k.shared lhs rhs
  | .subtype sub sup =>
    (if k.isTop sub then [(sup, .top)] else []) ++
      (if k.isBottom sup then [(sub, .bottom)] else [])
  | .join lhs rhs result =>
    if k.isTop lhs || k.isTop rhs then [(result, .top)]
    else if k.isBottom lhs then k.shared result rhs
    else if k.isBottom rhs then k.shared result lhs
    else []
  | .product lhs rhs result | .quotient lhs rhs result =>
    if k.isTop lhs || k.isTop rhs then [(result, .top)]
    else if k.isBottom lhs || k.isBottom rhs then [(result, .bottom)]
    else []

/-- Records the category of an unknown that has none yet. -/
def record (k : Categories) (e : Operand × Category) : Categories :=
  match e.1.slot with
  | .constant _ => k
  | .unknown _ => if k.contains e.1.id then k else k.insert e.1.id e.2

/-- Records what one constraint forces. -/
def visit (k : Categories) (c : Constraint Operand) : Categories := (k.forced c).foldl record k

/-- Visits all constraints in order. -/
def pass (constraints : List (Constraint Operand)) (k : Categories) : Categories :=
  constraints.foldl visit k

/-- Repeats passes until one finds nothing new, at most `rounds` times. -/
def iterate (constraints : List (Constraint Operand)) : Nat → Categories → Categories
  | 0, k => k
  | rounds + 1, k =>
    let next := pass constraints k
    if next.size = k.size then k else iterate constraints rounds next

/-- The categories of the unknowns; a pass with news settles at least one more slot. -/
def ofConstraints (slots : Nat) (constraints : List (Constraint Operand)) : Categories :=
  iterate constraints (slots + 1) SortedMap.empty

end Categories
end Linear
end Metrology
