/-!
# Formulas over Booleans and integers

Quantifier-free formulas with linear terms.  The constructors of the inductive
types build a tree as it is; the functions beside them fold literals, drop double
negations and flatten nested conjunctions and disjunctions, so that a formula
without variables folds to a literal.
-/

namespace Metrology
namespace Smt

/-- An integer term. -/
inductive Term where
  | var (name : String)
  | lit (n : Int)
  | add (a b : Term)
  | sub (a b : Term)
deriving DecidableEq

namespace Term

/-- The sum of two terms, folded. -/
def plus : Term → Term → Term
  | lit a, lit b => lit (a + b)
  | a, lit 0 => a
  | lit 0, b => b
  | a, b => add a b

/-- The difference of two terms, folded. -/
def minus : Term → Term → Term
  | lit a, lit b => lit (a - b)
  | a, lit 0 => a
  | a, b => sub a b

end Term

/-- A formula. -/
inductive Formula where
  | lit (b : Bool)
  | var (name : String)
  | not (f : Formula)
  | and (fs : List Formula)
  | or (fs : List Formula)
  | implies (a b : Formula)
  | iff (a b : Formula)
  | eq (a b : Term)

namespace Formula

instance : Inhabited Formula := ⟨lit true⟩

mutual

/-- Whether two formulas are the same tree. -/
def same : Formula → Formula → Bool
  | lit a, lit b => a == b
  | var a, var b => a == b
  | not a, not b => same a b
  | and as, and bs => sameAll as bs
  | or as, or bs => sameAll as bs
  | implies a c, implies b d => same a b && same c d
  | iff a c, iff b d => same a b && same c d
  | eq a c, eq b d => a == b && c == d
  | _, _ => false

/-- Whether two lists hold the same trees. -/
def sameAll : List Formula → List Formula → Bool
  | [], [] => true
  | a :: as, b :: bs => same a b && sameAll as bs
  | _, _ => false

end

mutual

theorem same_iff (a b : Formula) : same a b = true ↔ a = b := by
  match a with
  | lit _ | var _ | eq _ _ => cases b <;> simp [same]
  | not a =>
    cases b <;> simp [same]
    exact same_iff a _
  | and as | or as =>
    cases b <;> simp [same]
    exact sameAll_iff as _
  | implies a c | iff a c =>
    cases b <;> simp [same]
    exact and_congr (same_iff a _) (same_iff c _)

theorem sameAll_iff (as bs : List Formula) : sameAll as bs = true ↔ as = bs := by
  match as with
  | [] => cases bs <;> simp [sameAll]
  | a :: as =>
    cases bs with
    | nil => simp [sameAll]
    | cons b bs => simp [sameAll, same_iff a b, sameAll_iff as bs]

end

instance : DecidableEq Formula := fun a b => decidable_of_iff _ (same_iff a b)

/-- Whether a formula is the given literal. -/
def isLit (b : Bool) : Formula → Bool
  | lit c => c == b
  | _ => false

/-- The negation, folded. -/
def negate : Formula → Formula
  | lit b => lit (!b)
  | not f => f
  | f => not f

/-- What a formula adds to a conjunction. -/
def conjuncts : Formula → List Formula
  | lit true => []
  | and fs => fs
  | f => [f]

/-- The conjunction, folded. -/
def conj (fs : List Formula) : Formula :=
  if fs.any (isLit false) then lit false
  else
    match fs.flatMap conjuncts with
    | [] => lit true
    | [f] => f
    | fs => and fs

/-- What a formula adds to a disjunction. -/
def disjuncts : Formula → List Formula
  | lit false => []
  | or fs => fs
  | f => [f]

/-- The disjunction, folded. -/
def disj (fs : List Formula) : Formula :=
  if fs.any (isLit true) then lit true
  else
    match fs.flatMap disjuncts with
    | [] => lit false
    | [f] => f
    | fs => or fs

/-- The implication, folded. -/
def imply : Formula → Formula → Formula
  | lit false, _ => lit true
  | _, lit true => lit true
  | lit true, c => c
  | a, lit false => a.negate
  | a, c => implies a c

/-- The equivalence, folded. -/
def equiv : Formula → Formula → Formula
  | lit true, x => x
  | x, lit true => x
  | lit false, x => x.negate
  | x, lit false => x.negate
  | a, b => if a = b then lit true else iff a b

/-- The equality of two terms, folded. -/
def equate : Term → Term → Formula
  | .lit x, .lit y => lit (x == y)
  | a, b => if a = b then lit true else eq a b

end Formula
end Smt
end Metrology
