import Metrology.Host.Shell.Arithmetic
import Metrology.Text.Utf8

/-!
# Formatted output

What the commands that write their arguments make of them: escapes that stand for
bytes, and formats with places that arguments fill.

This is a part of the shell of the host in memory, on which no theorem about
sessions rests.
-/

namespace Metrology
namespace Shell
namespace Format

/-- The byte that a letter after a backslash stands for. -/
def escapeByte? : Char → Option UInt8
  | '\\' => some 92
  | 'a' => some 7
  | 'b' => some 8
  | 'e' => some 27
  | 'f' => some 12
  | 'n' => some 10
  | 'r' => some 13
  | 't' => some 9
  | 'v' => some 11
  | _ => none

/-- Whether a character is an octal digit. -/
def isOctal (c : Char) : Bool := '0' ≤ c && c ≤ '7'

/-- The bytes of an escape, given what follows its backslash, and what follows the escape.  A
backslash before anything else stands for itself. -/
def escape : List Char → List UInt8 × List Char
  | [] => ([92], [])
  | c :: rest =>
    match escapeByte? c with
    | some b => ([b], rest)
    | none =>
      let digits := ((c :: rest).takeWhile isOctal).take 3
      if digits.isEmpty then ([92], c :: rest)
      else ([(Nat.ofDigitChars 8 digits 0).toUInt8], (c :: rest).drop digits.length)

/-- The bytes of an argument with escapes, and whether one of them ends the output.  Here an
octal escape may start with a zero before its three digits. -/
def unescape : (fuel : Nat) → List Char → List UInt8 × Bool
  | 0, _ => ([], false)
  | _, [] => ([], false)
  | fuel + 1, '\\' :: rest =>
    match rest with
    | 'c' :: _ => ([], true)
    | rest =>
      let digits := match rest with
        | '0' :: d :: more => if isOctal d then d :: more else rest
        | _ => rest
      let (bytes, rest) := escape digits
      let (more, ended) := unescape fuel rest
      (bytes ++ more, ended)
  | fuel + 1, c :: rest =>
    let (more, ended) := unescape fuel rest
    (Utf8.encode c.toString ++ more, ended)

/-- The bytes of an argument with escapes, and whether one of them ends the output. -/
def unescaped (s : String) : List UInt8 × Bool := unescape s.length s.toList

/-- The output of writing arguments with spaces between them. -/
def echo (args : List String) : List UInt8 :=
  let (args, newline) := match args with
    | "-n" :: rest => (rest, false)
    | args => (args, true)
  let (bytes, ended) := unescaped (" ".intercalate args)
  if newline && !ended then bytes ++ [10] else bytes

/-- How a place of a format shows its argument. -/
structure Place where
  left : Bool := false
  zeros : Bool := false
  plus : Bool := false
  space : Bool := false
  alternate : Bool := false
  width : Nat := 0
  precision : Option Nat := none

/-- Output with the complaints made on the way. -/
structure Printed where
  bytes : List UInt8 := []
  complaints : List String := []
  /-- Whether nothing more is written. -/
  ended : Bool := false
  status : Nat := 0

/-- Output after other output. -/
def Printed.append (a b : Printed) : Printed :=
  ⟨a.bytes ++ b.bytes, a.complaints ++ b.complaints, b.ended, max a.status b.status⟩

/-- Fills bytes up to the width of a place. -/
def Place.pad (p : Place) (bytes : List UInt8) : List UInt8 :=
  let fill := List.replicate (p.width - bytes.length) 32
  if p.left then bytes ++ fill else fill ++ bytes

/-- Shows digits after a sign in a place. -/
def Place.digits (p : Place) (sign : String) (digits : List Char) : List UInt8 :=
  let digits := List.replicate (p.precision.getD 1 - digits.length) '0' ++ digits
  let missing := p.width - sign.length - digits.length
  let digits := if p.zeros && !p.left && p.precision.isNone then
      List.replicate missing '0' ++ digits
    else digits
  p.pad (Utf8.encode (sign ++ String.ofList digits))

/-- Shows a number in a place. -/
def Place.number (p : Place) (kind : Char) (n : Int) : List UInt8 :=
  if kind == 'd' || kind == 'i' then
    let sign := if n < 0 then "-" else if p.plus then "+" else if p.space then " " else ""
    p.digits sign (Nat.toDigits 10 n.natAbs)
  else
    let n := (if n < 0 then n + Nat.pow 2 64 else n).toNat
    match kind with
    | 'o' => p.digits (if p.alternate && n != 0 then "0" else "") (Nat.toDigits 8 n)
    | 'x' => p.digits (if p.alternate && n != 0 then "0x" else "") (Nat.toDigits 16 n)
    | 'X' =>
      p.digits (if p.alternate && n != 0 then "0X" else "")
        ((Nat.toDigits 16 n).map Char.toUpper)
    | _ => p.digits "" (Nat.toDigits 10 n)

/-- The number that an argument gives, and a complaint if it is none. -/
def numberOf (arg : String) : Int × List String :=
  match arg.toList with
  | [] => (0, [])
  | c :: rest =>
    if c == '"' || c == '\'' then
      (((Utf8.encode (String.ofList rest)).headD 0).toNat, [])
    else
      match leadingInteger (c :: rest) with
      | some (n, []) => (n, [])
      | some (n, _) => (n, [arg ++ ": not completely converted"])
      | none => (0, [arg ++ ": expected numeric value"])

/-- Reads the signs of a place. -/
def Place.flags : List Char → Place → Place × List Char
  | '-' :: rest, p => Place.flags rest { p with left := true }
  | '0' :: rest, p => Place.flags rest { p with zeros := true }
  | '+' :: rest, p => Place.flags rest { p with plus := true }
  | ' ' :: rest, p => Place.flags rest { p with space := true }
  | '#' :: rest, p => Place.flags rest { p with alternate := true }
  | rest, p => (p, rest)

/-- Reads a width: digits, or a star for the next argument. -/
def widthOf (cs : List Char) (args : List String) : Option Int × List Char × List String :=
  match cs with
  | '*' :: rest => (some (numberOf (args.headD "")).1, rest, args.tail)
  | cs =>
    let digits := cs.takeWhile Char.isDigit
    (if digits.isEmpty then none else some (Nat.ofDigitChars 10 digits 0),
      cs.drop digits.length, args)

/-- Reads a place after its percent sign. -/
def Place.read (cs : List Char) (args : List String) : Place × List Char × List String :=
  let (p, cs) := Place.flags cs {}
  let (width, cs, args) := widthOf cs args
  let w := width.getD 0
  let p := { p with left := p.left || w < 0, width := w.natAbs }
  match cs with
  | '.' :: cs =>
    let (precision, cs, args) := widthOf cs args
    ({ p with precision := some (precision.getD 0).toNat }, cs, args)
  | cs => (p, cs, args)

/-- Shows an argument in a place by its letter, if there is such a letter. -/
def Place.show? (p : Place) (kind : Char) (arg : Option String) : Option Printed :=
  let cut (bytes : List UInt8) : List UInt8 :=
    match p.precision with
    | some n => bytes.take n
    | none => bytes
  if kind == 's' then some { bytes := p.pad (cut (Utf8.encode (arg.getD ""))) }
  else if kind == 'b' then
    let (bytes, ended) := unescaped (arg.getD "")
    some { bytes := p.pad (cut bytes), ended }
  else if kind == 'c' then some { bytes := p.pad [(Utf8.encode (arg.getD "")).headD 0] }
  else if "diouxX".toList.contains kind then
    let (n, complaints) := numberOf (arg.getD "")
    some { bytes := p.number kind n, complaints, status := if complaints.isEmpty then 0 else 1 }
  else none

/-- Fills a format once and gives the arguments that are left. -/
def fill : (fuel : Nat) → List Char → List String → Printed × List String
  | 0, _, args => ({}, args)
  | _, [], args => ({}, args)
  | fuel + 1, '\\' :: rest, args =>
    let (bytes, rest) := escape rest
    let (more, args) := fill fuel rest args
    (Printed.append { bytes } more, args)
  | fuel + 1, '%' :: '%' :: rest, args =>
    let (more, args) := fill fuel rest args
    (Printed.append { bytes := [37] } more, args)
  | fuel + 1, '%' :: rest, args =>
    let (p, after, args) := Place.read rest args
    match after with
    | [] => ({ complaints := ["missing format character"], ended := true, status := 2 }, args)
    | kind :: after =>
      match p.show? kind args.head? with
      | none =>
        let directive := String.ofList ('%' :: rest.take (rest.length - after.length))
        ({ complaints := [directive ++ ": invalid directive"], ended := true, status := 2 },
          args)
      | some shown =>
        if shown.ended then (shown, args.tail)
        else
          let (more, args) := fill fuel after args.tail
          (shown.append more, args)
  | fuel + 1, c :: rest, args =>
    let (more, args) := fill fuel rest args
    (Printed.append { bytes := Utf8.encode c.toString } more, args)

/-- Fills a format again while it uses up arguments, at most `fuel` times. -/
def printUpTo : (fuel : Nat) → String → List String → Printed
  | 0, _, _ => {}
  | fuel + 1, format, args =>
    let (printed, left) := fill (format.length + 1) format.toList args
    if printed.ended || left.isEmpty || left.length == args.length then printed
    else printed.append (printUpTo fuel format left)

/-- The output of a format for arguments. -/
def print (format : String) (args : List String) : Printed :=
  printUpTo (args.length + 1) format args

end Format
end Shell
end Metrology
