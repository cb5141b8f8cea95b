import Metrology.Host.Tree
import Metrology.Text.Numeral

/-!
# Utilities

The programs of a host in memory, the shell apart.  Each one is given the name it
was called by, its arguments, its input and the files, and leaves output,
complaints, a status and perhaps changed files.  All of them work on bytes.

This is a part of the host in memory, which stands in for an operating system.
No theorem about sessions rests on it.
-/

namespace Metrology

/-- What a utility leaves. -/
structure Left where
  status : Nat := 0
  output : List UInt8 := []
  complaint : List UInt8 := []
  /-- The input that was not read. -/
  input : List UInt8 := []
  tree : FileTree

namespace Utility

/-- A call of a utility. -/
structure Call where
  name : String
  arguments : List String
  input : List UInt8
  tree : FileTree

namespace Call

/-- A call that succeeds with output after it has read all its input. -/
def done (c : Call) (output : List UInt8) : Left := { output, tree := c.tree }

/-- A call that fails with a complaint. -/
def fail (c : Call) (text : String) : Left :=
  { status := 1, complaint := Utf8.encode s!"{c.name}: {text}\n", input := c.input, tree := c.tree }

/-- A call with an option that the utility does not know. -/
def refuse (c : Call) (letter : Char) : Left :=
  c.fail s!"invalid option -- '{letter}'\nTry '{c.name} --help' for more information."

/-- A call without an operand that the utility needs. -/
def demand (c : Call) : Left :=
  c.fail s!"missing operand\nTry '{c.name} --help' for more information."

end Call

/-- The letters of the options among some arguments, and the other arguments.  Two dashes end
the options, and one dash is no option. -/
def options : List String → List Char × List String
  | [] => ([], [])
  | "--" :: rest => ([], rest)
  | arg :: rest =>
    let (letters, others) := options rest
    match arg.toList with
    | '-' :: c :: more => (c :: more ++ letters, others)
    | _ => (letters, arg :: others)

/-- The lines of some bytes, each with its end. -/
def lines : List UInt8 → List (List UInt8)
  | [] => []
  | b :: rest =>
    if b == 10 then [b] :: lines rest
    else
      match lines rest with
      | [] => [[b]]
      | l :: ls => (b :: l) :: ls

/-- A line without its end. -/
def content (line : List UInt8) : List UInt8 :=
  if line.getLast? == some 10 then line.dropLast else line

/-- A line with an end. -/
def ended (line : List UInt8) : List UInt8 := content line ++ [10]

/-- A path as complaints show it: in quotes if it holds signs that mean something to a shell. -/
def shownPath (path : String) : String :=
  let signs := " \t\n!\"$&'()*;<=>?[\\^\x60|".toList
  let cs := path.toList
  if cs.isEmpty || cs.any (signs.contains ·) || cs.head? == some '#' || cs.head? == some '~' then
    if cs.contains '\'' then "\"" ++ path ++ "\"" else "'" ++ path ++ "'"
  else path

/-- The bytes that the files of some paths hold, one after the other, and complaints on those
that cannot be read.  A dash stands for the input, which can be read once. -/
def gather (c : Call) : List String → List UInt8 → List UInt8 × List UInt8
  | [], _ => ([], [])
  | path :: rest, input =>
    if path == "-" || path == "/dev/stdin" then
      let (bytes, complaints) := gather c rest []
      (input ++ bytes, complaints)
    else
      let (more, complaints) := gather c rest input
      match c.tree.readBytes path with
      | .ok bytes => (bytes ++ more, complaints)
      | .error e =>
        let reason := shownPath path ++ ": " ++ e.reason
        (more, Utf8.encode s!"{c.name}: {reason}\n" ++ complaints)

/-- Whether some paths make a utility read its input. -/
def readsInput (paths : List String) : Bool :=
  paths.isEmpty || paths.any fun p => p == "-" || p == "/dev/stdin"

/-- Makes output of the bytes of some files, or of the input if there are none. -/
def transform (c : Call) (paths : List String) (f : List UInt8 → List UInt8) : Left :=
  let (bytes, complaint) := gather c (if paths.isEmpty then ["-"] else paths) c.input
  { status := if complaint.isEmpty then 0 else 1, output := f bytes, complaint
    input := if readsInput paths then [] else c.input, tree := c.tree }

/-! ### Copying -/

/-- A byte as printable text; tabs and ends of lines stay. -/
def visible (b : UInt8) : List UInt8 :=
  let low (b : UInt8) : List UInt8 :=
    if b < 32 then [94, b + 64] else if b == 127 then [94, 63] else [b]
  if b == 9 || b == 10 then [b]
  else if b < 128 then low b
  else [77, 45] ++ low (b - 128)

/-- A number to the right of six places and a tab after it. -/
def numbered (n : Nat) : List UInt8 :=
  let digits := Utf8.encode (toString n)
  List.replicate (6 - digits.length) 32 ++ digits ++ [9]

/-- Leaves out empty lines after an empty line. -/
def squeeze : List (List UInt8) → List (List UInt8)
  | [10] :: [10] :: rest => squeeze ([10] :: rest)
  | l :: rest => l :: squeeze rest
  | [] => []

/-- Numbers lines from `n` on, perhaps only those that are not empty. -/
def number (all : Bool) (n : Nat) : List (List UInt8) → List (List UInt8)
  | [] => []
  | l :: rest =>
    if all || l != [10] then (numbered n ++ l) :: number all (n + 1) rest
    else l :: number all n rest

/-- Copies files one after the other. -/
def concatenate (c : Call) : Left :=
  let (letters, paths) := options c.arguments
  match letters.find? fun l => !"AbeEnstTuv".toList.contains l with
  | some l => c.refuse l
  | none =>
    let has (s : String) : Bool := letters.any (s.toList.contains ·)
    let shown (l : List UInt8) : List UInt8 :=
      let l := if has "Aevt" then l.flatMap visible else l
      let l := if has "AtT" then l.flatMap fun b => if b == 9 then [94, 73] else [b] else l
      if has "AeE" && l.getLast? == some 10 then content l ++ [36, 10] else l
    transform c paths fun bytes =>
      if letters.all (· == 'u') then bytes
      else
        let ls := lines bytes
        let ls := if has "s" then squeeze ls else ls
        let ls := ls.map shown
        (if has "b" then number false 1 ls else if has "n" then number true 1 ls else ls).flatten

/-- Copies the input to files and to the output. -/
def branch (c : Call) : Left :=
  let (letters, paths) := options c.arguments
  let keep := letters.contains 'a'
  paths.foldl (fun left path =>
    match left.tree.writeBytes path keep c.input with
    | .ok tree => { left with tree }
    | .error e =>
      let reason := e.reason
      { left with
        status := 1
        complaint := left.complaint ++ Utf8.encode s!"{c.name}: {path}: {reason}\n" })
    (c.done c.input)

/-! ### Parts of a text -/

/-- How many lines or bytes are asked for. -/
structure Amount where
  /-- The sign that may stand before the number. -/
  sign : Option Char := none
  count : Nat := 10
  bytes : Bool := false

/-- Reads an amount. -/
def Amount.read? (text : String) (bytes : Bool) : Option Amount :=
  match text.toList with
  | '-' :: digits => (Numeral.digits? digits).map fun n => ⟨some '-', n, bytes⟩
  | '+' :: digits => (Numeral.digits? digits).map fun n => ⟨some '+', n, bytes⟩
  | digits => (Numeral.digits? digits).map fun n => ⟨none, n, bytes⟩

/-- Reads an amount and paths from arguments. -/
def amount (a : Amount) : List String → Option (Amount × List String)
  | [] => some (a, [])
  | "-n" :: n :: rest => do amount (← Amount.read? n false) rest
  | "-c" :: n :: rest => do amount (← Amount.read? n true) rest
  | "--" :: rest => some (a, rest)
  | arg :: rest =>
    match arg.toList with
    | '-' :: 'n' :: n => do amount (← Amount.read? (String.ofList n) false) rest
    | '-' :: 'c' :: n => do amount (← Amount.read? (String.ofList n) true) rest
    | '-' :: d :: n => do amount (← Amount.read? (String.ofList (d :: n)) false) rest
    | _ => do
      let (a, paths) ← amount a rest
      return (a, arg :: paths)

/-- Copies the first lines or bytes, or all but the last ones. -/
def firstLines (c : Call) : Left :=
  match amount {} c.arguments with
  | none => c.fail "invalid number"
  | some (a, paths) =>
    transform c paths fun bytes =>
      let units := if a.bytes then bytes.map ([·]) else lines bytes
      (if a.sign == some '-' then units.take (units.length - a.count)
        else units.take a.count).flatten

/-- Copies the last lines or bytes, or those from one on. -/
def lastLines (c : Call) : Left :=
  match amount {} c.arguments with
  | none => c.fail "invalid number"
  | some (a, paths) =>
    transform c paths fun bytes =>
      let units := if a.bytes then bytes.map ([·]) else lines bytes
      (if a.sign == some '+' then units.drop (a.count - 1)
        else units.drop (units.length - a.count)).flatten

/-! ### Counting -/

/-- Whether a byte is blank. -/
def isBlank (b : UInt8) : Bool := b == 32 || (9 ≤ b && b ≤ 13)

/-- The number of words, given whether one was begun. -/
def countWords : Bool → List UInt8 → Nat
  | _, [] => 0
  | inside, b :: rest =>
    if isBlank b then countWords false rest
    else (if inside then 0 else 1) + countWords true rest

/-- Counts lines, words and bytes. -/
def count (c : Call) : Left :=
  let (letters, paths) := options c.arguments
  match letters.find? fun l => !"lwcm".toList.contains l with
  | some l => c.refuse l
  | none =>
    let asked (l : Char) : Bool := letters.isEmpty || letters.contains l
    transform c paths fun bytes =>
      let counts :=
        (if asked 'l' then [(bytes.filter (· == 10)).length] else []) ++
        (if asked 'w' then [countWords false bytes] else []) ++
        (if letters.contains 'm' then
          [(bytes.filter fun b => b < 128 || 192 ≤ b).length] else []) ++
        (if asked 'c' then [bytes.length] else [])
      let texts := counts.map toString
      let texts := if texts.length == 1 then texts
        else texts.map fun t => String.ofList (List.replicate (7 - t.length) ' ') ++ t
      let names := paths.filter (· != "-")
      Utf8.encode (" ".intercalate (texts ++ names) ++ "\n")

/-! ### Bytes -/

/-- The bytes between two bytes. -/
def byteRange (low high : UInt8) : List UInt8 :=
  (List.range (high.toNat + 1 - low.toNat)).map fun i => (low.toNat + i).toUInt8

/-- The bytes of a named class. -/
def classBytes : String → List UInt8
  | "digit" => byteRange 48 57
  | "lower" => byteRange 97 122
  | "upper" => byteRange 65 90
  | "alpha" => byteRange 65 90 ++ byteRange 97 122
  | "alnum" => byteRange 48 57 ++ byteRange 65 90 ++ byteRange 97 122
  | "space" => byteRange 9 13 ++ [32]
  | "blank" => [9, 32]
  | "punct" => byteRange 33 47 ++ byteRange 58 64 ++ byteRange 91 96 ++ byteRange 123 126
  | _ => []

/-- The byte that a letter after a backslash stands for. -/
def escapeByte (b : UInt8) : UInt8 :=
  match b with
  | 110 => 10
  | 116 => 9
  | 114 => 13
  | 97 => 7
  | 98 => 8
  | 102 => 12
  | 118 => 11
  | b => b

/-- Whether a byte is an octal digit. -/
def isOctal (b : UInt8) : Bool := 48 ≤ b && b ≤ 55

/-- The bytes of a set, with escapes replaced and marked. -/
def setUnits : (fuel : Nat) → List UInt8 → List (UInt8 × Bool)
  | 0, _ => []
  | _, [] => []
  | fuel + 1, 92 :: b :: rest =>
    let digits := ((b :: rest).takeWhile isOctal).take 3
    if digits.isEmpty then (escapeByte b, true) :: setUnits fuel rest
    else
      let value := digits.foldl (fun n d => 8 * n + (d - 48)) 0
      (value, true) :: setUnits fuel ((b :: rest).drop digits.length)
  | fuel + 1, b :: rest => (b, false) :: setUnits fuel rest

/-- The bytes that a set lists. -/
def setBytes : (fuel : Nat) → List (UInt8 × Bool) → List UInt8
  | 0, _ => []
  | _, [] => []
  | fuel + 1, (91, false) :: (58, false) :: rest =>
    let name := rest.takeWhile fun u => u.1 != 58
    let bytes := classBytes (Utf8.decodeLossy (name.map Prod.fst))
    bytes ++ setBytes fuel (rest.drop (name.length + 2))
  | fuel + 1, (low, _) :: (45, false) :: (high, _) :: rest =>
    byteRange low high ++ setBytes fuel rest
  | fuel + 1, (b, _) :: rest => b :: setBytes fuel rest

/-- The bytes that a text lists. -/
def setOf (text : String) : List UInt8 :=
  let bytes := Utf8.encode text
  let units := setUnits bytes.length bytes
  setBytes units.length units

/-- Leaves out bytes of a set after themselves. -/
def squeezeBytes (set : List UInt8) : List UInt8 → List UInt8
  | a :: b :: rest =>
    if a == b && set.contains a then squeezeBytes set (b :: rest)
    else a :: squeezeBytes set (b :: rest)
  | bytes => bytes

/-- Replaces, drops or squeezes bytes. -/
def replace (c : Call) : Left :=
  let (letters, sets) := options c.arguments
  match letters.find? fun l => !"dscC".toList.contains l, sets with
  | some l, _ => c.refuse l
  | none, [] => c.demand
  | none, first :: others =>
    let complement := letters.contains 'c' || letters.contains 'C'
    let source := setOf first
    let member (b : UInt8) : Bool := source.contains b != complement
    let target := setOf (others.headD "")
    let image (b : UInt8) : UInt8 :=
      match (if complement then none else source.idxOf? b) with
      | some i => target.getD i (target.getLastD b)
      | none => if member b then target.getLastD b else b
    transform c [] fun bytes =>
      let bytes :=
        if letters.contains 'd' then bytes.filter fun b => !member b
        else if others.isEmpty then bytes
        else bytes.map image
      if letters.contains 's' then
        squeezeBytes (if others.isEmpty then bytes.filter member else target) bytes
      else bytes

/-! ### Lines -/

/-- The number at the start of a line. -/
def leadingNumber (line : List UInt8) : Int :=
  let cs := (Utf8.decodeLossy line).toList.dropWhile fun c => c == ' ' || c == '\t'
  let negative := cs.head? == some '-'
  let digits := (if negative then cs.tail else cs).takeWhile Char.isDigit
  let n : Int := Nat.ofDigitChars 10 digits 0
  if negative then -n else n

/-- Whether a line is not after another one. -/
def lineLe (numeric : Bool) (a b : List UInt8) : Bool :=
  if numeric && leadingNumber a != leadingNumber b then leadingNumber a ≤ leadingNumber b
  else !decide (b < a)

/-- Puts lines in order. -/
def order (c : Call) : Left :=
  let (letters, paths) := options c.arguments
  match letters.find? fun l => !"nru".toList.contains l with
  | some l => c.refuse l
  | none =>
    transform c paths fun bytes =>
      let le := lineLe (letters.contains 'n')
      let ls := ((lines bytes).map content).mergeSort le
      let ls := if letters.contains 'r' then ls.reverse else ls
      let ls := if letters.contains 'u' then ls.eraseDups else ls
      ls.flatMap ended

/-- Groups of equal lines that stand together. -/
def groups : List (List UInt8) → List (Nat × List UInt8)
  | [] => []
  | l :: rest =>
    match groups rest with
    | (n, m) :: more => if m == l then (n + 1, l) :: more else (1, l) :: (n, m) :: more
    | [] => [(1, l)]

/-- Leaves out lines that repeat the one before. -/
def distinct (c : Call) : Left :=
  let (letters, paths) := options c.arguments
  match letters.find? fun l => !"cdu".toList.contains l with
  | some l => c.refuse l
  | none =>
    transform c paths fun bytes =>
      let found := groups ((lines bytes).map content)
      let found := if letters.contains 'd' then found.filter fun g => 1 < g.1 else found
      let found := if letters.contains 'u' then found.filter fun g => g.1 == 1 else found
      found.flatMap fun g =>
        if letters.contains 'c' then
          let n := Utf8.encode (toString g.1)
          List.replicate (7 - n.length) 32 ++ n ++ 32 :: ended g.2
        else ended g.2

/-! ### Numbers and texts -/

/-- The numbers from one on up to another, by steps, at most `fuel` of them. -/
def rangeFrom (step last : Int) : (fuel : Nat) → Int → List Int
  | 0, _ => []
  | fuel + 1, n =>
    if (0 < step && last < n) || (step < 0 && n < last) then []
    else n :: rangeFrom step last fuel (n + step)

/-- Writes the numbers of a range. -/
def range (c : Call) : Left :=
  match c.arguments.mapM fun a => Numeral.int? a.toList with
  | none => c.fail "invalid floating point argument"
  | some bounds =>
    let write (first step last : Int) : Left :=
      let size := (last - first).natAbs + 1
      { output := (rangeFrom step last size first).flatMap fun n =>
          Utf8.encode (toString n ++ "\n")
        input := c.input, tree := c.tree }
    match bounds with
    | [last] => write 1 1 last
    | [first, last] => write first 1 last
    | [first, step, last] => write first step last
    | _ => c.demand

/-- Writes the arguments with spaces between them. -/
def write (c : Call) : Left :=
  let (args, newline) := match c.arguments with
    | "-n" :: rest => (rest, "")
    | args => (args, "\n")
  { output := Utf8.encode (" ".intercalate args ++ newline), input := c.input, tree := c.tree }

end Utility

/-- Runs a program other than the shell. -/
def Program.runUtility (p : Program) (c : Utility.Call) : Left :=
  match p with
  | shell => { tree := c.tree }
  | concatenate => Utility.concatenate c
  | firstLines => Utility.firstLines c
  | lastLines => Utility.lastLines c
  | count => Utility.count c
  | replace => Utility.replace c
  | order => Utility.order c
  | distinct => Utility.distinct c
  | range => Utility.range c
  | branch => Utility.branch c
  | write => Utility.write c
  | succeed | wait => { input := c.input, tree := c.tree }
  | fail => { status := 1, input := c.input, tree := c.tree }

end Metrology
