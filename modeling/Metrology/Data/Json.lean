import Metrology.Data
import Metrology.Text.Decimal
import Metrology.Text.Numeral
import Metrology.Text.Scan

/-!
# JSON

A reader for JSON texts that keeps repeated names, and a writer that puts every
item on its own line.  Values nest up to a fixed depth, numbers must be finite as
doubles, and escaped surrogates must come in pairs.
-/

namespace Metrology
namespace Json

open Scan

/-- The deepest nesting of lists and records. -/
def maxDepth : Nat := 127

/-- Whether a character may stand between tokens. -/
def isSpace (c : Char) : Bool := c == ' ' || c == '\t' || c == '\n' || c == '\r'

/-- Skips what may stand between tokens. -/
def space : Scan Unit := skip isSpace

/-- The character that a letter after a backslash stands for. -/
def escaped? : Char → Option Char
  | '"' => some '"'
  | '\\' => some '\\'
  | '/' => some '/'
  | 'b' => some '\x08'
  | 'f' => some '\x0c'
  | 'n' => some '\n'
  | 'r' => some '\r'
  | 't' => some '\t'
  | _ => none

/-- Whether a code unit is the first of a surrogate pair. -/
def isHighSurrogate (n : Nat) : Bool := 0xD800 ≤ n && n < 0xDC00

/-- Whether a code unit is the second of a surrogate pair. -/
def isLowSurrogate (n : Nat) : Bool := 0xDC00 ≤ n && n < 0xE000

/-- The rest of a string after its opening quote. -/
def unquote : List Char → Option (List Char × List Char)
  | [] => none
  | '"' :: rest => some ([], rest)
  | '\\' :: 'u' :: a :: b :: c :: d :: rest => do
    let high ← Numeral.inBase? 16 [a, b, c, d]
    if isHighSurrogate high then
      match rest with
      | '\\' :: 'u' :: e :: f :: g :: h :: rest =>
        let low ← Numeral.inBase? 16 [e, f, g, h]
        if isLowSurrogate low then
          let (s, rest) ← unquote rest
          return (Char.ofNat (0x10000 + (high - 0xD800) * 0x400 + (low - 0xDC00)) :: s, rest)
        else none
      | _ => none
    else if isLowSurrogate high then none
    else
      let (s, rest) ← unquote rest
      return (Char.ofNat high :: s, rest)
  | '\\' :: c :: rest => do
    let c ← escaped? c
    let (s, rest) ← unquote rest
    return (c :: s, rest)
  | c :: rest =>
    if c.toNat < 0x20 || c == '\\' then none
    else do
      let (s, rest) ← unquote rest
      return (c :: s, rest)

/-- A string. -/
def string : Scan String := do
  expect '"'
  return String.ofList (← StateT.mk unquote)

/-- The digits of an integer part: a zero, or digits of which the first is none. -/
def wholePart : Scan (List Char) := do
  if ← accept '0' then return ['0'] else span1 Char.isDigit

/-- The digits after the point, if there is one. -/
def fraction : Scan (List Char) := do
  if ← accept '.' then span1 Char.isDigit else return []

/-- The exponent, if there is one. -/
def exponent : Scan (Option Int) := do
  if (← optionally (one fun c => c == 'e' || c == 'E')).isSome then
    let negative ← accept '-'
    if !negative then
      let _ ← accept '+'
    let digits ← span1 Char.isDigit
    let n := Nat.ofDigitChars 10 digits 0
    return some (if negative then -(n : Int) else n)
  else return none

/-- A number; one with a fraction, with an exponent, equal to `-0` or longer than its
significand is no integer. -/
def number : Scan Data := do
  let negative ← accept '-'
  let integer := (← wholePart).foldl Decimal.pushWhole {}
  let fraction ← fraction
  let exponent ← exponent
  let read := (fraction.foldl Decimal.pushFraction integer.reopen).shift (exponent.getD 0)
  if !read.isFinite then failure
  else if fraction.isEmpty && exponent.isNone && !integer.full &&
      !(negative && read.significand == 0) then
    return .int (if negative then -(read.significand : Int) else read.significand)
  else return .float

/-- A value that holds no other. -/
def scalar : Scan Data :=
  (Data.text <$> string) <|> number <|> (word "null" *> pure .null) <|>
    (word "true" *> pure (.bool true)) <|> (word "false" *> pure (.bool false))

/-- A value with the space around it. -/
def padded (value : Scan Data) : Scan Data := space *> value <* space

/-- A list of values. -/
def list (value : Scan Data) : Scan Data := do
  expect '['
  space
  if ← accept ']' then return .list []
  let items ← separatedBy ',' (padded value)
  expect ']'
  return .list items

/-- A name and its value. -/
def field (value : Scan Data) : Scan (String × Data) := do
  space
  let name ← string
  space
  expect ':'
  return (name, ← padded value)

/-- A record of named values. -/
def record (value : Scan Data) : Scan Data := do
  expect '\x7b'
  space
  if ← accept '\x7d' then return .record []
  let fields ← separatedBy ',' (field value)
  expect '\x7d'
  return .record fields

/-- A value with at most `depth` levels of nesting. -/
def value : (depth : Nat) → Scan Data
  | 0 => scalar
  | depth + 1 => scalar <|> list (value depth) <|> record (value depth)

/-- The value that a text holds. -/
def read? (text : String) : Option Data := (padded (value maxDepth)).whole? text

/-- A character as it is written inside a string. -/
def escape (c : Char) : List Char :=
  if c == '"' then ['\\', '"']
  else if c == '\\' then ['\\', '\\']
  else if c == '\n' then ['\\', 'n']
  else if c == '\r' then ['\\', 'r']
  else if c == '\t' then ['\\', 't']
  else if c == '\x08' then ['\\', 'b']
  else if c == '\x0c' then ['\\', 'f']
  else if c.toNat < 0x20 then
    ['\\', 'u', '0', '0', (c.toNat / 16).digitChar, (c.toNat % 16).digitChar]
  else [c]

/-- A string in quotes. -/
def quote (s : String) : String :=
  String.ofList ('"' :: s.toList.flatMap escape ++ ['"'])

/-- The start of a line at a level of nesting. -/
def indent (level : Nat) : String := String.ofList (List.replicate (2 * level) ' ')

/-- Bracketed parts, each on its own line. -/
def block (level : Nat) (opening closing : String) (parts : List String) : String :=
  if parts.isEmpty then opening ++ closing
  else
    opening ++ "\n" ++ ",\n".intercalate (parts.map (indent (level + 1) ++ ·)) ++ "\n" ++
      indent level ++ closing

mutual

/-- The text of a value inside some levels of nesting; what has no written form here is null. -/
def writeAt (level : Nat) : Data → String
  | .null | .float | .date => "null"
  | .bool b => if b then "true" else "false"
  | .int n => toString n
  | .text s => quote s
  | .list items => block level "[" "]" (writeItems (level + 1) items)
  | .record fields => block level "\x7b" "\x7d" (writeFields (level + 1) fields)

/-- The texts of the items of a list. -/
def writeItems (level : Nat) : List Data → List String
  | [] => []
  | item :: items => writeAt level item :: writeItems level items

/-- The texts of the fields of a record. -/
def writeFields (level : Nat) : List (String × Data) → List String
  | [] => []
  | (name, value) :: fields =>
    (quote name ++ ": " ++ writeAt level value) :: writeFields level fields

end

/-- The text of a value, two spaces for each level of nesting. -/
def write (d : Data) : String := writeAt 0 d

end Json
end Metrology
