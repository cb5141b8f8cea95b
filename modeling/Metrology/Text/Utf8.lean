import Metrology.Text.Blank

/-!
# UTF-8

Decoding of bytes.  `decode?` refuses bytes that are not well formed, and
`decodeLossy` puts the replacement character in the place of each longest run of
bytes that starts a character but does not finish it.
-/

namespace Metrology
namespace Utf8

/-- The number of continuation bytes after a first byte, its payload, and the bounds of the
byte after it. -/
def lead? (b : Nat) : Option (Nat × Nat × Nat × Nat) :=
  if b < 0x80 then some (0, b, 0x80, 0xBF)
  else if 0xC2 ≤ b && b ≤ 0xDF then some (1, b % 0x20, 0x80, 0xBF)
  else if 0xE0 ≤ b && b ≤ 0xEF then
    some (2, b % 0x10, if b == 0xE0 then 0xA0 else 0x80, if b == 0xED then 0x9F else 0xBF)
  else if 0xF0 ≤ b && b ≤ 0xF4 then
    some (3, b % 0x08, if b == 0xF0 then 0x90 else 0x80, if b == 0xF4 then 0x8F else 0xBF)
  else none

/-- A character of which some bytes have been read: how many are missing, its payload so far
and the bounds of the next byte. -/
structure Pending where
  missing : Nat
  payload : Nat
  low : Nat
  high : Nat

/-- Starts a character; a byte that starts none stands for a bad one. -/
def start (b : UInt8) : Option Pending × List (Option Char) :=
  match lead? b.toNat with
  | some (0, payload, _, _) => (none, [some (Char.ofNat payload)])
  | some (n, payload, low, high) => (some ⟨n, payload, low, high⟩, [])
  | none => (none, [none])

/-- The characters of bytes, with `none` for each bad run, given a character that was begun. -/
def characters : Option Pending → List UInt8 → List (Option Char)
  | none, [] => []
  | some _, [] => [none]
  | none, b :: rest => (start b).2 ++ characters (start b).1 rest
  | some p, b :: rest =>
    if p.low ≤ b.toNat && b.toNat ≤ p.high then
      let payload := p.payload * 0x40 + b.toNat % 0x40
      if p.missing = 1 then some (Char.ofNat payload) :: characters none rest
      else characters (some ⟨p.missing - 1, payload, 0x80, 0xBF⟩) rest
    else none :: (start b).2 ++ characters (start b).1 rest

/-- The text of well-formed bytes. -/
def decode? (bytes : List UInt8) : Option String :=
  ((characters none bytes).mapM id).map String.ofList

/-- The text of bytes, with replacement characters for the bad ones. -/
def decodeLossy (bytes : List UInt8) : String :=
  String.ofList ((characters none bytes).map fun c => c.getD '�')

/-- The bytes of a text. -/
def encode (s : String) : List UInt8 := s.toUTF8.toList

end Utf8
end Metrology
