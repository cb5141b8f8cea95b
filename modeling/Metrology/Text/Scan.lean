/-!
# Scanners

A scanner reads a value from the front of a text and leaves the rest, or fails.
It is the state monad over the characters that are left, so alternatives start
again from the same place.
-/

namespace Metrology

/-- A reader of the front of a text. -/
abbrev Scan := StateT (List Char) Option

namespace Scan

/-- The next character, left in place. -/
def peek : Scan (Option Char) := do return (← get).head?

/-- Takes the given character. -/
def expect (c : Char) : Scan Unit := do
  match ← get with
  | [] => failure
  | next :: rest => if next = c then set rest else failure

/-- Takes the characters of a word. -/
def word (s : String) : Scan Unit := s.toList.forM expect

/-- Takes the given character if it is next. -/
def accept (c : Char) : Scan Bool := do
  match ← get with
  | [] => return false
  | next :: rest =>
    if next = c then
      set rest
      return true
    else return false

/-- Takes the characters in front that satisfy `p`. -/
def span (p : Char → Bool) : Scan (List Char) := do
  let cs ← get
  set (cs.dropWhile p)
  return cs.takeWhile p

/-- Takes the characters in front that satisfy `p`, at least one. -/
def span1 (p : Char → Bool) : Scan (List Char) := do
  let found ← span p
  if found.isEmpty then failure else return found

/-- Skips the characters in front that satisfy `p`. -/
def skip (p : Char → Bool) : Scan Unit := modify (List.dropWhile p)

/-- Takes one character that satisfies `p`. -/
def one (p : Char → Bool) : Scan Char := do
  match ← get with
  | [] => failure
  | next :: rest =>
    if p next then
      set rest
      return next
    else failure

/-- Takes exactly `n` characters that satisfy `p`. -/
def exactly (p : Char → Bool) : Nat → Scan (List Char)
  | 0 => return []
  | n + 1 => do
    let c ← one p
    return c :: (← exactly p n)

/-- What a scanner finds, if it does not fail. -/
def optionally {α : Type} (scan : Scan α) : Scan (Option α) :=
  (some <$> scan) <|> pure none

/-- One or more items divided by a character, at most as many as `fuel`. -/
def separated {α : Type} (divider : Char) (item : Scan α) : (fuel : Nat) → Scan (List α)
  | 0 => failure
  | fuel + 1 => do
    let a ← item
    if ← accept divider then return a :: (← separated divider item fuel) else return [a]

/-- One or more items divided by a character; every item and divider takes a character, so
there are no more items than characters. -/
def separatedBy {α : Type} (divider : Char) (item : Scan α) : Scan (List α) := do
  separated divider item ((← get).length + 1)

/-- The value of a whole text. -/
def whole? {α : Type} (scan : Scan α) (text : String) : Option α :=
  match scan.run text.toList with
  | some (a, []) => some a
  | _ => none

end Scan
end Metrology
