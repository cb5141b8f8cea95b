import Metrology.Linear.Equation

/-!
# Systems of equations

The equations of one component, kept in the order of their lines and each once,
and the text in which a system is handed to an elimination tool: the number of
unknowns, the number of equations, then one line for each equation.
-/

namespace Metrology
namespace Linear

/-- The equations over one component. -/
structure ComponentSystem where
  component : Component
  /-- The number of unknowns. -/
  width : Nat
  /-- The equations by their lines. -/
  equations : SortedMap String Equation := SortedMap.empty
deriving DecidableEq

namespace ComponentSystem

/-- Adds an equation. -/
def push (s : ComponentSystem) (e : Equation) : ComponentSystem :=
  { s with equations := s.equations.insert e.render e }

/-- The name of the file that holds the system. -/
def fileName (s : ComponentSystem) : String := s!"gjeConstraints_{s.component}.gje"

/-- The text of the system. -/
def text (s : ComponentSystem) : String :=
  s!"{s.width}\n{s.equations.size}\n" ++ String.join (s.equations.keys.map (· ++ "\n"))

end ComponentSystem

/-- A system as it was read: its number of unknowns and its equations in order. -/
structure ReadSystem where
  width : Nat
  equations : List Equation
deriving DecidableEq

namespace ReadSystem

/-- Reads a count line. -/
def readCount (what : CountLine) : Option (List Char) → Except Malformation Nat
  | none => .error (.missingCount what)
  | some line =>
    match Numeral.natOfBits? 64 line with
    | some n => .ok n
    | none => .error (.badCount what (String.ofList line))

/-- Reads the text of a system. -/
def read (text : String) : Except Malformation ReadSystem := do
  let lines := Text.filledLines text.toList
  let width ← readCount .unknowns lines[0]?
  let declared ← readCount .equations lines[1]?
  let equations ← (lines.drop 2).mapM (Equation.read width)
  if equations.length ≠ declared then
    throw (.equationCount declared equations.length)
  return ⟨width, equations⟩

end ReadSystem
end Linear
end Metrology
