import Metrology.Text.Numeral
import Metrology.SortedMap

/-!
# Shell arithmetic

Integer expressions of 64 bits, in which names stand for the values of variables.
An expression is read by the precedence of its operators and then evaluated, so
that an operand that does not count has no effect.

This is a part of the shell of the host in memory, on which no theorem about
sessions rests.
-/

namespace Metrology
namespace Shell

/-- The integer of 64 bits that is nearest to an integer. -/
def clamp (n : Int) : Int := max (-(Nat.pow 2 63 : Nat)) (min n ((Nat.pow 2 63 : Nat) - 1))

/-- The integer in front of a text, in hexadecimal, octal or decimal digits, and what follows. -/
def leadingInteger (cs : List Char) : Option (Int × List Char) :=
  let cs := cs.dropWhile fun c => c == ' ' || c == '\t' || c == '\n'
  let negative := cs.head? == some '-'
  let digits := if negative || cs.head? == some '+' then cs.tail else cs
  let inBase (base : Nat) (cs : List Char) : Option (Int × List Char) :=
    let isDigit (c : Char) : Bool := (Numeral.hexDigit? c).any (· < base)
    match Numeral.inBase? base (cs.takeWhile isDigit) with
    | some n => some (clamp (if negative then -(n : Int) else n), cs.dropWhile isDigit)
    | none => none
  match digits with
  | '0' :: x :: d :: rest =>
    if (x == 'x' || x == 'X') && (Numeral.hexDigit? d).isSome then inBase 16 (d :: rest)
    else inBase 8 digits
  | '0' :: _ => inBase 8 digits
  | d :: _ => if d.isDigit then inBase 10 digits else none
  | [] => none

namespace Arithmetic

/-- A token of an expression. -/
inductive Token where
  | number (n : Int)
  | name (s : String)
  | operator (s : String)
deriving DecidableEq

/-- An expression. -/
inductive Expression where
  | number (n : Int)
  | name (s : String)
  | unary (operator : String) (e : Expression)
  | binary (operator : String) (a b : Expression)
  | conditional (c a b : Expression)
  /-- Sets a variable to a value, or to the result of an operator on both. -/
  | assign (name : String) (operator : Option String) (e : Expression)

instance : Inhabited Expression := ⟨.number 0⟩

/-- The operators, those that start with another one before it. -/
def operators : List String :=
  ["<<=", ">>=", "<<", ">>", "<=", ">=", "==", "!=", "&&", "||", "+=", "-=", "*=", "/=", "%=",
    "&=", "|=", "^=", "+", "-", "*", "/", "%", "<", ">", "=", "!", "~", "&", "|", "^", "?", ":",
    "(", ")"]

/-- The tokens of a text; a character that starts none is an operator of its own. -/
def tokens : (fuel : Nat) → List Char → List Token
  | 0, _ => []
  | _, [] => []
  | fuel + 1, c :: rest =>
    if c == ' ' || c == '\t' || c == '\n' then tokens fuel rest
    else if c.isDigit then
      match leadingInteger (c :: rest) with
      | some (n, rest) => .number n :: tokens fuel rest
      | none => []
    else if c.isAlpha || c == '_' then
      let isPart (c : Char) : Bool := c.isAlphanum || c == '_'
      .name (String.ofList (c :: rest.takeWhile isPart)) :: tokens fuel (rest.dropWhile isPart)
    else
      match operators.find? fun o => o.toList.isPrefixOf (c :: rest) with
      | some o => .operator o :: tokens fuel ((c :: rest).drop o.length)
      | none => .operator c.toString :: tokens fuel rest

/-- How closely an operator binds its operands. -/
def precedence? : String → Option Nat
  | "||" => some 1
  | "&&" => some 2
  | "|" => some 3
  | "^" => some 4
  | "&" => some 5
  | "==" | "!=" => some 6
  | "<" | "<=" | ">" | ">=" => some 7
  | "<<" | ">>" => some 8
  | "+" | "-" => some 9
  | "*" | "/" | "%" => some 10
  | _ => none

/-- The operator that an assignment applies first, if it is an assignment. -/
def assignment? : String → Option (Option String)
  | "=" => some none
  | "+=" => some (some "+")
  | "-=" => some (some "-")
  | "*=" => some (some "*")
  | "/=" => some (some "/")
  | "%=" => some (some "%")
  | "<<=" => some (some "<<")
  | ">>=" => some (some ">>")
  | "&=" => some (some "&")
  | "|=" => some (some "|")
  | "^=" => some (some "^")
  | _ => none

/-- A reader of the front of a list of tokens. -/
abbrev TokenReader := StateT (List Token) (Except String)

/-- Takes an operator if it is next. -/
def accept (operator : String) : TokenReader Bool := do
  match ← get with
  | .operator o :: rest =>
    if o == operator then
      set rest
      return true
    else return false
  | _ => return false

mutual

/-- An operand. -/
def primary : (fuel : Nat) → TokenReader Expression
  | 0 => throw "expecting primary"
  | fuel + 1 => do
    match ← get with
    | .number n :: rest =>
      set rest
      return .number n
    | .name s :: rest =>
      set rest
      return .name s
    | .operator o :: rest =>
      if ["!", "~", "+", "-"].contains o then
        set rest
        return .unary o (← primary fuel)
      else if o == "(" then
        set rest
        let e ← expression fuel
        if ← accept ")" then return e else throw "expecting ')'"
      else throw "expecting primary"
    | [] => throw "expecting primary"

/-- Operators of at least some precedence after a first operand. -/
def binaryRest : (fuel least : Nat) → Expression → TokenReader Expression
  | 0, _, a => return a
  | fuel + 1, least, a => do
    match ← get with
    | .operator o :: rest =>
      match precedence? o with
      | some p =>
        if least ≤ p then
          set rest
          let b ← binaryRest fuel (p + 1) (← primary fuel)
          binaryRest fuel least (.binary o a b)
        else return a
      | none => return a
    | _ => return a

/-- An expression without an assignment. -/
def conditional : (fuel : Nat) → TokenReader Expression
  | 0 => throw "expecting primary"
  | fuel + 1 => do
    let c ← binaryRest fuel 1 (← primary fuel)
    if ← accept "?" then
      let a ← expression fuel
      if ← accept ":" then return .conditional c a (← conditional fuel)
      else throw "expecting ':'"
    else return c

/-- An expression. -/
def expression : (fuel : Nat) → TokenReader Expression
  | 0 => throw "expecting primary"
  | fuel + 1 => do
    match ← get with
    | .name s :: .operator o :: rest =>
      match assignment? o with
      | some operator =>
        set rest
        return .assign s operator (← expression fuel)
      | none => conditional fuel
    | _ => conditional fuel

end

/-- Reads a whole expression. -/
def read (text : String) : Except String Expression := do
  let ts := tokens text.length text.toList
  let (e, rest) ← (expression (8 * ts.length + 8)).run ts
  if rest.isEmpty then return e else throw "expecting EOF"

/-- Why an expression has no value. -/
inductive Fault where
  | illegalNumber (text : String)
  | divisionByZero
deriving DecidableEq

/-- The value of a truth value. -/
def truth (b : Bool) : Int64 := if b then 1 else 0

/-- The value of an operator whose operands both count. -/
def apply (operator : String) (a b : Int64) : Except Fault Int64 :=
  match operator with
  | "+" => .ok (a + b)
  | "-" => .ok (a - b)
  | "*" => .ok (a * b)
  | "/" => if b = 0 then .error .divisionByZero else .ok (a / b)
  | "%" => if b = 0 then .error .divisionByZero else .ok (a % b)
  | "<<" => .ok (a <<< b)
  | ">>" => .ok (a >>> b)
  | "<" => .ok (truth (a < b))
  | "<=" => .ok (truth (a ≤ b))
  | ">" => .ok (truth (b < a))
  | ">=" => .ok (truth (b ≤ a))
  | "==" => .ok (truth (a == b))
  | "!=" => .ok (truth (a != b))
  | "&" => .ok (a &&& b)
  | "^" => .ok (a ^^^ b)
  | "|" => .ok (a ||| b)
  | _ => .ok 0

/-- The values of variables while an expression is evaluated. -/
abbrev Evaluation := StateT (SortedMap String String) (Except Fault)

/-- The value of a variable; one without digits counts as zero. -/
def variableValue (name : String) : Evaluation Int64 := do
  let text := ((← get).get? name).getD ""
  let isBlank (c : Char) : Bool := c == ' ' || c == '\t' || c == '\n'
  if text.toList.all isBlank then return 0
  match leadingInteger text.toList with
  | some (n, rest) =>
    if rest.all isBlank then return Int64.ofInt n else throw (.illegalNumber text)
  | none => throw (.illegalNumber text)

/-- The value of an expression. -/
def evaluate : Expression → Evaluation Int64
  | .number n => return Int64.ofInt n
  | .name s => variableValue s
  | .unary o e => do
    let v ← evaluate e
    match o with
    | "!" => return truth (v == 0)
    | "~" => return ~~~v
    | "-" => return -v
    | _ => return v
  | .binary "&&" a b => do
    if (← evaluate a) == 0 then return 0 else return truth ((← evaluate b) != 0)
  | .binary "||" a b => do
    if (← evaluate a) != 0 then return 1 else return truth ((← evaluate b) != 0)
  | .binary o a b => do
    let x ← evaluate a
    let y ← evaluate b
    apply o x y
  | .conditional c a b => do
    if (← evaluate c) != 0 then evaluate a else evaluate b
  | .assign name operator e => do
    let v ← evaluate e
    let v ← match operator with
      | some o => do apply o (← variableValue name) v
      | none => pure v
    modify fun values => values.insert name (toString v.toInt)
    return v

end Arithmetic
end Shell
end Metrology
