/-!
# Numerals

Readers for decimal numerals.  A natural may carry a plus sign and an integer
either sign; the fixed-width readers also refuse values outside their range.
`grouped?` reads integers of any size whose digits may be grouped by underscores,
and `rational?` reads a quotient of two of them.
-/

namespace Metrology
namespace Numeral

/-- The value of a hexadecimal digit. -/
def hexDigit? (c : Char) : Option Nat :=
  if '0' ≤ c ∧ c ≤ '9' then some (c.toNat - '0'.toNat)
  else if 'a' ≤ c ∧ c ≤ 'f' then some (c.toNat - 'a'.toNat + 10)
  else if 'A' ≤ c ∧ c ≤ 'F' then some (c.toNat - 'A'.toNat + 10)
  else none

/-- The number that digits of a base up to sixteen write. -/
def inBase? (base : Nat) (cs : List Char) : Option Nat :=
  cs.foldlM (fun n c => ((hexDigit? c).filter (· < base)).map fun d => base * n + d) 0

/-- A number rounded to its first `bits` binary digits, halves to the even neighbour. -/
def roundBits (bits n : Nat) : Nat :=
  let unit := Nat.pow 2 (n.log2 + 1 - bits)
  let quotient := n / unit
  let twice := 2 * (n % unit)
  let up := unit < twice || (unit == twice && quotient % 2 == 1)
  unit * (if up then quotient + 1 else quotient)

/-- The numbers from here on round to no finite double: the middle between the largest one and
the next power of two. -/
def doubleBound : Nat := Nat.pow 2 1024 - Nat.pow 2 970

/-- Whether `mantissa * 10 ^ exponent` rounds to a finite double.  Dividing by a power of
ten beyond the number's length gives zero either way, so no larger power is computed. -/
def isFiniteDouble (mantissa : Nat) (exponent : Int) : Bool :=
  if mantissa = 0 then true
  else if exponent < 0 then
    mantissa / Nat.pow 10 (min exponent.natAbs mantissa.log2) < doubleBound
  else if 400 < exponent then false
  else mantissa * Nat.pow 10 exponent.natAbs < doubleBound

/-- The number written by a nonempty run of decimal digits. -/
def digits? (cs : List Char) : Option Nat :=
  if cs.isEmpty || !cs.all Char.isDigit then none else some (Nat.ofDigitChars 10 cs 0)

/-- A natural number, perhaps after a plus sign. -/
def nat? : List Char → Option Nat
  | '+' :: cs => digits? cs
  | cs => digits? cs

/-- An integer, perhaps after a sign. -/
def int? : List Char → Option Int
  | '-' :: cs => (digits? cs).map fun n => -(n : Int)
  | cs => (nat? cs).map fun n => (n : Int)

/-- A natural number of `bits` bits. -/
def natOfBits? (bits : Nat) (cs : List Char) : Option Nat :=
  (nat? cs).filter (· < Nat.pow 2 bits)

/-- An integer of `bits` bits in two's complement. -/
def intOfBits? (bits : Nat) (cs : List Char) : Option Int :=
  let bound := Nat.pow 2 (bits - 1)
  (int? cs).filter fun n => -(bound : Int) ≤ n && n < bound

/-- Digits that underscores may follow. -/
def groupedDigits? (cs : List Char) : Option Nat :=
  match cs with
  | [] => none
  | '_' :: _ => none
  | _ => (cs.filter (· != '_')) |> digits?

/-- A sign-free numeral after at most one plus sign. -/
def groupedNat? : List Char → Option Nat
  | '+' :: cs => groupedDigits? cs
  | cs => groupedDigits? cs

/-- An integer of any size whose digits may be grouped by underscores. -/
def grouped? : List Char → Option Int
  | '-' :: cs => (groupedDigits? cs).map fun n => -(n : Int)
  | cs => (groupedNat? cs).map fun n => (n : Int)

/-- The parts of a text before and after its first slash. -/
def splitSlash (cs : List Char) : List Char × Option (List Char) :=
  match cs.dropWhile (· != '/') with
  | [] => (cs, none)
  | _ :: after => (cs.takeWhile (· != '/'), some after)

/-- An integer, or two integers divided by a slash of which the second is not zero. -/
def rational? (cs : List Char) : Option Rat :=
  match splitSlash cs with
  | (num, none) => (grouped? num).map fun n => (n : Rat)
  | (num, some den) => do
    let n ← grouped? num
    let d ← grouped? den
    if d = 0 then none else some (Rat.divInt n d)

/-- A rational as `p`, or as `p/q` in lowest terms with a positive denominator. -/
def renderRational (q : Rat) : String :=
  if q.den = 1 then toString q.num else s!"{q.num}/{q.den}"

end Numeral
end Metrology
