import Metrology.Data
import Metrology.Text.Numeral
import Metrology.Text.Scan

/-!
# The tokens of TOML

Blanks and comments, strings in their four forms, keys, numbers, dates and times.
-/

namespace Metrology
namespace Toml

open Scan

/-- Whether a character is a blank inside a line. -/
def isSpace (c : Char) : Bool := c == ' ' || c == '\t'

/-- Skips the blanks inside a line. -/
def space : Scan Unit := skip isSpace

/-- Whether a character may stand in text: a tab, or no control character. -/
def isTextual (c : Char) : Bool := c == '\t' || (0x20 ≤ c.toNat && c != '\x7f')

/-- A line end: a line feed, perhaps after a carriage return. -/
def lineEnd : Scan Unit := do
  let _ ← accept '\r'
  expect '\n'

/-- A comment up to the end of its line. -/
def comment : Scan Unit := do
  expect '#'
  skip isTextual

/-- Whether nothing is left. -/
def atEnd : Scan Bool := do return (← get).isEmpty

/-- The rest of a line after its content. -/
def lineRest : Scan Unit := do
  space
  let _ ← optionally comment
  if !(← atEnd) then lineEnd

/-- The blanks, comments and line ends between the items of a list, at most as many pieces as
`fuel`. -/
def gapUpTo : (fuel : Nat) → Scan Unit
  | 0 => space
  | fuel + 1 => do
    space
    match ← peek with
    | some '#' =>
      comment
      lineEnd
      gapUpTo fuel
    | some '\n' | some '\r' =>
      lineEnd
      gapUpTo fuel
    | _ => return ()

/-- The blanks, comments and line ends between the items of a list. -/
def gap : Scan Unit := do gapUpTo (← get).length

/-! ### Strings -/

/-- The character that a letter after a backslash stands for. -/
def escaped? : Char → Option Char
  | '"' => some '"'
  | '\\' => some '\\'
  | 'b' => some '\x08'
  | 'f' => some '\x0c'
  | 'n' => some '\n'
  | 'r' => some '\r'
  | 't' => some '\t'
  | _ => none

/-- The character with the number that hexadecimal digits write. -/
def scalarValue? (digits : List Char) : Option Char := do
  let n ← Numeral.inBase? 16 digits
  if n.isValidChar then some (Char.ofNat n) else none

/-- The rest of a string of one line after its opening quote. -/
def unquote : List Char → Option (List Char × List Char)
  | [] => none
  | '"' :: rest => some ([], rest)
  | '\\' :: 'u' :: a :: b :: c :: d :: rest => do
    let c ← scalarValue? [a, b, c, d]
    let (s, rest) ← unquote rest
    return (c :: s, rest)
  | '\\' :: 'U' :: a :: b :: c :: d :: e :: f :: g :: h :: rest => do
    let c ← scalarValue? [a, b, c, d, e, f, g, h]
    let (s, rest) ← unquote rest
    return (c :: s, rest)
  | '\\' :: c :: rest => do
    let c ← escaped? c
    let (s, rest) ← unquote rest
    return (c :: s, rest)
  | c :: rest =>
    if !isTextual c || c == '\\' then none
    else do
      let (s, rest) ← unquote rest
      return (c :: s, rest)

/-- Whether a line end is next after blanks. -/
def endsLine (cs : List Char) : Bool :=
  match cs.dropWhile isSpace with
  | '\n' :: _ => true
  | '\r' :: '\n' :: _ => true
  | _ => false

/-- The end of a string of several lines after its three closing quotes: up to two more belong
to the string. -/
def closeLong (mark : Char) : List Char → List Char × List Char
  | a :: b :: rest =>
    if a = mark then
      if b = mark then ([mark, mark], rest) else ([mark], b :: rest)
    else ([], a :: b :: rest)
  | [a] => if a = mark then ([mark], []) else ([], [a])
  | [] => ([], [])

/-- The rest of a string of several lines after its opening quotes.  While `trimming`, which a
backslash at the end of a line starts, blanks and line ends are left out. -/
def unquoteLong : (trimming : Bool) → List Char → Option (List Char × List Char)
  | _, [] => none
  | _, '"' :: '"' :: '"' :: rest => some (closeLong '"' rest)
  | trimming, '\n' :: rest =>
    if trimming then unquoteLong true rest
    else do
      let (s, rest) ← unquoteLong false rest
      return ('\n' :: s, rest)
  | trimming, '\r' :: '\n' :: rest =>
    if trimming then unquoteLong true rest
    else do
      let (s, rest) ← unquoteLong false rest
      return ('\n' :: s, rest)
  | _, '\\' :: 'u' :: a :: b :: c :: d :: rest => do
    let c ← scalarValue? [a, b, c, d]
    let (s, rest) ← unquoteLong false rest
    return (c :: s, rest)
  | _, '\\' :: 'U' :: a :: b :: c :: d :: e :: f :: g :: h :: rest => do
    let c ← scalarValue? [a, b, c, d, e, f, g, h]
    let (s, rest) ← unquoteLong false rest
    return (c :: s, rest)
  | _, '\\' :: c :: rest =>
    if endsLine (c :: rest) then unquoteLong true (c :: rest)
    else do
      let c ← escaped? c
      let (s, rest) ← unquoteLong false rest
      return (c :: s, rest)
  | trimming, c :: rest =>
    if trimming && isSpace c then unquoteLong true rest
    else if !isTextual c || c == '\\' then none
    else do
      let (s, rest) ← unquoteLong false rest
      return (c :: s, rest)

/-- The rest of a string of several lines in which nothing is escaped. -/
def verbatimLong : List Char → Option (List Char × List Char)
  | [] => none
  | '\'' :: '\'' :: '\'' :: rest => some (closeLong '\'' rest)
  | '\r' :: '\n' :: rest => do
    let (s, rest) ← verbatimLong rest
    return ('\n' :: s, rest)
  | c :: rest =>
    if !isTextual c && c != '\n' then none
    else do
      let (s, rest) ← verbatimLong rest
      return (c :: s, rest)

/-- A string of one line in double quotes. -/
def shortQuoted : Scan String := do
  expect '"'
  return String.ofList (← StateT.mk unquote)

/-- A string of one line in single quotes. -/
def shortVerbatim : Scan String := do
  expect '\''
  let s ← span fun c => isTextual c && c != '\''
  expect '\''
  return String.ofList s

/-- A string of several lines in double quotes; a line end right after them is left out. -/
def longQuoted : Scan String := do
  word "\"\"\""
  let _ ← optionally lineEnd
  return String.ofList (← StateT.mk (unquoteLong false))

/-- A string of several lines in single quotes; a line end right after them is left out. -/
def longVerbatim : Scan String := do
  word "\'\'\'"
  let _ ← optionally lineEnd
  return String.ofList (← StateT.mk verbatimLong)

/-- A string in any of its forms. -/
def string : Scan String := do
  match ← get with
  | '"' :: '"' :: '"' :: _ => longQuoted
  | '\'' :: '\'' :: '\'' :: _ => longVerbatim
  | '"' :: _ => shortQuoted
  | _ => shortVerbatim

/-! ### Keys -/

/-- Whether a character may stand in a key without quotes. -/
def isKeyChar (c : Char) : Bool := c.isAlphanum || c == '_' || c == '-'

/-- One part of a key, with the blanks around it. -/
def keyPart : Scan String := do
  space
  let part ← shortQuoted <|> shortVerbatim <|> (String.ofList <$> span1 isKeyChar)
  space
  return part

/-- A key has fewer parts than this. -/
def maxParts : Nat := 80

/-- A key as the parts before its last one and the last one. -/
def key : Scan (List String × String) := do
  let parts ← separatedBy '.' keyPart
  match parts.getLast? with
  | some last => if parts.length < maxParts then return (parts.dropLast, last) else failure
  | none => failure

/-! ### Numbers -/

/-- Digits between which single underscores may stand, at most as many groups as `fuel`. -/
def groupsUpTo (isDigit : Char → Bool) : (fuel : Nat) → Scan (List Char)
  | 0 => failure
  | fuel + 1 => do
    let digits ← span1 isDigit
    if ← accept '_' then return digits ++ (← groupsUpTo isDigit fuel) else return digits

/-- Digits between which single underscores may stand. -/
def groups (isDigit : Char → Bool) : Scan (List Char) := do
  groupsUpTo isDigit ((← get).length + 1)

/-- A sign, as whether it is a minus. -/
def sign : Scan Bool := do
  if ← accept '-' then return true
  let _ ← accept '+'
  return false

/-- Decimal digits: a zero, or digits of which the first is none. -/
def decimal : Scan (List Char) := do
  if ← accept '0' then return ['0'] else groups Char.isDigit

/-- The integers that can be written: those of 64 bits. -/
def bounded? (n : Int) : Option Data :=
  if -(Nat.pow 2 63 : Int) ≤ n ∧ n < Nat.pow 2 63 then some (.int n) else none

/-- An integer in base sixteen, eight or two. -/
def based (mark : String) (base : Nat) : Scan Data := do
  word mark
  let digits ← groups fun c => ((Numeral.hexDigit? c).filter (· < base)).isSome
  StateT.lift (Numeral.inBase? base digits >>= fun n => bounded? n)

/-- A decimal integer. -/
def decimalInteger : Scan Data := do
  let negative ← sign
  let n := Nat.ofDigitChars 10 (← decimal) 0
  StateT.lift (bounded? (if negative then -(n : Int) else n))

/-- An integer. -/
def integer : Scan Data :=
  based "0x" 16 <|> based "0o" 8 <|> based "0b" 2 <|> decimalInteger

/-- The exponent of a number. -/
def exponent : Scan Int := do
  let _ ← one fun c => c == 'e' || c == 'E'
  let negative ← sign
  let n := Nat.ofDigitChars 10 (← groups Char.isDigit) 0
  return if negative then -(n : Int) else n

/-- The digits after a point. -/
def fraction : Scan (List Char) := do
  expect '.'
  groups Char.isDigit

/-- A number with a fraction, an exponent or both; only a positive one can be too large. -/
def fractional : Scan Data := do
  let negative ← sign
  let whole ← decimal
  let after ← optionally fraction
  let power ← optionally exponent
  if after.isNone && power.isNone then failure
  let after := after.getD []
  let mantissa := Nat.ofDigitChars 10 (whole ++ after) 0
  if negative || Numeral.isFiniteDouble mantissa (power.getD 0 - after.length) then return .float
  else failure

/-- An infinity or no number. -/
def unbounded : Scan Data := do
  let _ ← sign
  word "inf" <|> word "nan"
  return .float

/-! ### Dates and times -/

/-- A number of exactly `count` digits. -/
def fixedWidth (count : Nat) : Scan Nat := do
  return Nat.ofDigitChars 10 (← exactly Char.isDigit count) 0

/-- A number of two digits in a range. -/
def twoDigits (low high : Nat) : Scan Nat := do
  let n ← fixedWidth 2
  if low ≤ n ∧ n ≤ high then return n else failure

/-- The number of days of a month. -/
def daysIn (year month : Nat) : Nat :=
  if month == 2 then
    if year % 4 == 0 && (year % 100 != 0 || year % 400 == 0) then 29 else 28
  else if month == 4 || month == 6 || month == 9 || month == 11 then 30
  else 31

/-- A day of the calendar. -/
def date : Scan Unit := do
  let year ← fixedWidth 4
  expect '-'
  let month ← twoDigits 1 12
  expect '-'
  let _ ← twoDigits 1 (daysIn year month)

/-- A time of day, perhaps in a leap second. -/
def time : Scan Unit := do
  let _ ← twoDigits 0 23
  expect ':'
  let _ ← twoDigits 0 59
  expect ':'
  let _ ← twoDigits 0 60
  let _ ← optionally (expect '.' *> span1 Char.isDigit)

/-- An offset from universal time. -/
def offset : Scan Unit := do
  match ← one fun c => c == 'Z' || c == 'z' || c == '+' || c == '-' with
  | 'Z' | 'z' => return ()
  | _ =>
    let _ ← twoDigits 0 23
    expect ':'
    let _ ← twoDigits 0 59

/-- A time on a day, after the character that divides them. -/
def timeOfDate : Scan Unit := do
  let _ ← one fun c => c == 'T' || c == 't' || c == ' '
  time
  let _ ← optionally offset

/-- A date, a time or both. -/
def instant : Scan Data :=
  ((do
    date
    let _ ← optionally timeOfDate) <|> time) *> pure .date

/-- A value that holds no other. -/
def scalar : Scan Data :=
  (Data.text <$> string) <|> instant <|> fractional <|> unbounded <|> integer <|>
    (word "true" *> pure (.bool true)) <|> (word "false" *> pure (.bool false))

end Toml
end Metrology
