import Metrology.Smt.Formula

/-!
# SMT-LIB scripts

A problem declares variables, asserts labelled formulas and prefers weighted ones.
Its script is SMT-LIB text with each assertion under a comment with its origin.
-/

namespace Metrology
namespace Smt

/-- The sorts of variables. -/
inductive VarSort where
  | bool
  | int
deriving DecidableEq

/-- The SMT-LIB name of a sort. -/
def VarSort.render : VarSort → String
  | bool => "Bool"
  | int => "Int"

instance : ToString VarSort := ⟨VarSort.render⟩

/-- Whether a name can stand in a script without quotes. -/
def isSimpleSymbol (name : String) : Bool :=
  match name.toList with
  | [] => false
  | c :: rest => c.isAlpha && rest.all fun d => d.isAlphanum || d == '_'

/-- A name as an SMT-LIB symbol. -/
def quote (name : String) : String := if isSimpleSymbol name then name else s!"|{name}|"

/-- The SMT-LIB text of a term. -/
def Term.render : Term → String
  | var name => quote name
  | lit n => if n < 0 then s!"(- {n.natAbs})" else toString n
  | add a b =>
    let left := a.render
    let right := b.render
    s!"(+ {left} {right})"
  | sub a b =>
    let left := a.render
    let right := b.render
    s!"(- {left} {right})"

namespace Formula

mutual

/-- The SMT-LIB text of a formula. -/
def render : Formula → String
  | lit b => if b then "true" else "false"
  | var name => quote name
  | not f =>
    let text := f.render
    s!"(not {text})"
  | and fs =>
    let texts := " ".intercalate (renderAll fs)
    s!"(and {texts})"
  | or fs =>
    let texts := " ".intercalate (renderAll fs)
    s!"(or {texts})"
  | implies a b =>
    let left := a.render
    let right := b.render
    s!"(=> {left} {right})"
  | iff a b =>
    let left := a.render
    let right := b.render
    s!"(= {left} {right})"
  | eq a b =>
    let left := a.render
    let right := b.render
    s!"(= {left} {right})"

/-- The SMT-LIB texts of formulas. -/
def renderAll : List Formula → List String
  | [] => []
  | f :: fs => f.render :: renderAll fs

end

instance : ToString Formula := ⟨render⟩

end Formula

/-- A formula that must hold, with a label and the place it comes from. -/
structure Assertion where
  label : String
  origin : String
  formula : Formula
deriving DecidableEq

/-- Declarations, assertions and preferences. -/
structure Problem where
  declarations : List (String × VarSort) := []
  hard : List Assertion := []
  soft : List (Formula × Nat) := []
deriving DecidableEq

namespace Problem

/-- The problem without declarations. -/
def empty : Problem := {}

/-- Declares a variable. -/
def declare (p : Problem) (name : String) (sort : VarSort) : Problem :=
  { p with declarations := p.declarations ++ [(name, sort)] }

/-- Asserts a formula, unless it is true. -/
def assert (p : Problem) (label origin : String) (formula : Formula) : Problem :=
  if formula = .lit true then p else { p with hard := p.hard ++ [⟨label, origin, formula⟩] }

/-- Prefers a formula, unless it is true. -/
def prefer (p : Problem) (formula : Formula) (weight : Nat) : Problem :=
  if formula = .lit true then p else { p with soft := p.soft ++ [(formula, weight)] }

/-- The origin of the first assertion with a label. -/
def origin? (p : Problem) (label : String) : Option String :=
  (p.hard.find? fun a => a.label = label).map Assertion.origin

/-- The lines of an assertion. -/
def assertionLines (a : Assertion) : List String :=
  [s!"; {a.origin}", s!"(assert (! {a.formula} :named {a.label}))"]

/-- The lines of the script. -/
def lines (p : Problem) : List String :=
  ["(set-option :produce-models true)", "(set-option :produce-unsat-cores true)",
    "(set-logic QF_LIA)"] ++
  p.declarations.map (fun d => s!"(declare-const {quote d.1} {d.2})") ++
  p.hard.flatMap assertionLines ++
  p.soft.map (fun s => s!"(assert-soft {s.1} :weight {s.2})") ++
  ["(check-sat)", "(get-model)"]

/-- The script. -/
def script (p : Problem) : String := String.join (p.lines.map (· ++ "\n"))

end Problem
end Smt
end Metrology
