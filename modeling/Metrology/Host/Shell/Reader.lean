import Metrology.Host.Shell.Script
import Metrology.Text.Blank

/-!
# Reading scripts

A reader for shell scripts.  Words are read character by character, because what a
character means depends on the quotes and braces around it; commands are read by
looking at the next word or operator.  Every function takes fuel, of which a
character of the text needs a fixed amount.

This is a part of the shell of the host in memory, on which no theorem about
sessions rests.
-/

namespace Metrology
namespace Shell

/-- What is left of a script. -/
structure Source where
  rest : List Char
  line : Nat := 1
  /-- The lines of documents that were read ahead, up to the end of this line. -/
  ahead : Nat := 0

/-- A reader of the front of a script. -/
abbrev Reader := StateT Source (Except ReadError)

namespace Reader

/-- Fails at the current line. -/
def fail {α : Type} (text : String) : Reader α := do
  throw ⟨(← get).line, "Syntax error: " ++ text⟩

/-- The next character, left in place. -/
def peek : Reader (Option Char) := do return (← get).rest.head?

/-- The source after a character that is next. -/
def after (s : Source) (c : Char) : Source :=
  if c == '\n' then { rest := s.rest.tail, line := s.line + 1 + s.ahead }
  else { s with rest := s.rest.tail }

/-- Takes the next character. -/
def next : Reader (Option Char) := do
  let s ← get
  match s.rest.head? with
  | none => return none
  | some c =>
    set (after s c)
    return some c

/-- Takes a text of one line if it is next. -/
def accept (text : String) : Reader Bool := do
  let s ← get
  if text.toList.isPrefixOf s.rest then
    set { s with rest := s.rest.drop text.length }
    return true
  else return false

/-- Whether a text is next. -/
def sees (text : String) : Reader Bool := do return text.toList.isPrefixOf (← get).rest

/-- Takes the characters in front that satisfy `p`, all of one line. -/
def span (p : Char → Bool) : Reader String := do
  let s ← get
  set { s with rest := s.rest.dropWhile p }
  return String.ofList (s.rest.takeWhile p)

/-- Whether a character ends an unquoted word. -/
def isMeta (c : Char) : Bool := " \t\n;&|<>()".toList.contains c

/-- Whether a character may start a name. -/
def isNameStart (c : Char) : Bool := c.isAlpha || c == '_'

/-- Whether a character may continue a name. -/
def isNamePart (c : Char) : Bool := c.isAlphanum || c == '_'

/-- Whether a text is a name. -/
def isName (s : String) : Bool :=
  match s.toList with
  | [] => false
  | c :: rest => isNameStart c && rest.all isNamePart

/-- The characters after blanks, joined lines and a comment, and the number of joined lines. -/
def skipBlanksIn : List Char → Nat → List Char × Nat
  | ' ' :: rest, n => skipBlanksIn rest n
  | '\t' :: rest, n => skipBlanksIn rest n
  | '\\' :: '\n' :: rest, n => skipBlanksIn rest (n + 1)
  | '#' :: rest, n => (rest.dropWhile (· != '\n'), n)
  | rest, n => (rest, n)

/-- Skips blanks and a comment. -/
def skipBlanks : Reader Unit :=
  modify fun s =>
    let (rest, joined) := skipBlanksIn s.rest 0
    { s with rest, line := s.line + joined }

/-- Skips blanks, comments and ends of lines, at most as many lines as `fuel`. -/
def skipLines : (fuel : Nat) → Reader Unit
  | 0 => pure ()
  | fuel + 1 => do
    skipBlanks
    if (← peek) == some '\n' then
      let _ ← next
      skipLines fuel

/-- The next word, if all of it is plain text. -/
def peekWord : Reader (Option String) := do
  let w := (← get).rest.takeWhile fun c => !isMeta c
  if w.isEmpty || w.any ("'\"\\$\x60".toList.contains ·) then return none
  else return some (String.ofList w)

/-- The words with a meaning of their own at the start of a command. -/
def reserved : List String :=
  ["!", "\x7b", "\x7d", "case", "do", "done", "elif", "else", "esac", "fi", "for", "if", "in",
    "then", "until", "while"]

/-- The words that end a list of commands. -/
def closing : List String :=
  ["\x7d", "do", "done", "elif", "else", "esac", "fi", "then"]

/-- The operators of which no other one starts with a longer text first. -/
def operators : List String := [";;", "&&", "||", ";", "&", "|", "(", ")"]

/-- How a complaint names what is next. -/
def describeNext : Reader String := do
  skipBlanks
  let rest := (← get).rest
  let isAngle (c : Char) : Bool := c == '<' || c == '>'
  match operators.find? fun o => o.toList.isPrefixOf rest with
  | some o => return "\"" ++ o ++ "\""
  | none =>
    match rest with
    | [] => return "end of file"
    | '\n' :: _ => return "newline"
    | rest =>
      if (rest.dropWhile Char.isDigit).head?.any isAngle then return "redirection"
      match ← peekWord with
      | some w => return if reserved.contains w then "\"" ++ w ++ "\"" else "word"
      | none => return "word"

/-- Fails because of what is next. -/
def unexpected {α : Type} (expecting : Option String) : Reader α := do
  let found ← describeNext
  if (← peek) == some '\n' then
    let _ ← next
  match expecting with
  | none => fail (found ++ " unexpected")
  | some wanted => fail (found ++ " unexpected (expecting \"" ++ wanted ++ "\")")

/-- Takes a word with a meaning of its own. -/
def expectWord (word : String) : Reader Unit := do
  skipBlanks
  if (← peekWord) == some word then
    let _ ← accept word
  else unexpected (some word)

/-- Takes an operator. -/
def expectOperator (operator : String) : Reader Unit := do
  skipBlanks
  if !(← accept operator) then unexpected (some operator)

/-- Whether a list of commands ends here. -/
def atClosing : Reader Bool := do
  skipBlanks
  match ← peek with
  | none => return true
  | some c =>
    if c == ')' || (← sees ";;") then return true
    match ← peekWord with
    | some w => return closing.contains w
    | none => return false

/-- A word with one more character. -/
def push (quoted : Bool) (c : Char) : Word → Word
  | .text s q :: rest => if q == quoted then .text (s.push c) q :: rest
    else .text c.toString quoted :: .text s q :: rest
  | rest => .text c.toString quoted :: rest

/-- Takes text up to a single quote. -/
def untilQuote : (fuel : Nat) → List Char → Reader String
  | 0, _ => fail "Unterminated quoted string"
  | fuel + 1, acc => do
    match ← next with
    | none => fail "Unterminated quoted string"
    | some '\'' => return String.ofList acc.reverse
    | some c => untilQuote fuel (c :: acc)

/-- Takes text up to a back quote, without the backslashes that quote it. -/
def untilBackQuote (quoted : Bool) : (fuel : Nat) → List Char → Reader (List Char)
  | 0, _ => fail "EOF in backquote substitution"
  | fuel + 1, acc => do
    match ← next with
    | none => fail "EOF in backquote substitution"
    | some '\x60' => return acc.reverse
    | some '\\' =>
      match ← next with
      | none => fail "EOF in backquote substitution"
      | some c =>
        if c == '\x60' || c == '\\' || c == '$' || (quoted && c == '"') then
          untilBackQuote quoted fuel (c :: acc)
        else untilBackQuote quoted fuel (c :: '\\' :: acc)
    | some c => untilBackQuote quoted fuel (c :: acc)

/-- The name of a parameter in front: a name, a number or a sign. -/
def parameterName (wide : Bool) : Reader (Option String) := do
  match ← peek with
  | none => return none
  | some c =>
    if isNameStart c then return some (← span isNamePart)
    else if c.isDigit then
      if wide then return some (← span Char.isDigit)
      else
        let _ ← next
        return some c.toString
    else if "@*#?-$!".toList.contains c then
      let _ ← next
      return some c.toString
    else return none

/-- The fallback that a sign asks for. -/
def fallback? : Char → Option Fallback
  | '-' => some .value
  | '=' => some .assign
  | '?' => some .complaint
  | '+' => some .alternative
  | _ => none

/-- The plain text of a word, and whether any of it is quoted. -/
def plain (w : Word) : String × Bool :=
  (String.join (w.map fun
    | .text s _ => s
    | _ => ""),
   w.any fun
    | .text _ quoted => quoted
    | _ => false)

/-- The assignment that a word makes. -/
def assignment? : Word → Option (String × Word)
  | .text s false :: rest =>
    let name := s.toList.takeWhile (· != '=')
    match s.toList.drop name.length with
    | [] => none
    | _ :: value =>
      if isName (String.ofList name) then
        let value := if value.isEmpty then [] else [Part.text (String.ofList value) false]
        some (String.ofList name, value ++ rest)
      else none
  | _ => none

/-- The lines of a text, each without its end. -/
def linesOf (text : List Char) : List (List Char) := Text.pieces (· == '\n') text

/-- Takes the document that follows the current line up to a delimiter. -/
def takeDocument (delimiter : String) (strip : Bool) : Reader (List Char) := do
  let s ← get
  let current := s.rest.takeWhile (· != '\n')
  match s.rest.drop current.length with
  | [] => return []
  | _ :: below =>
    let lines := (linesOf below).map fun l => if strip then l.dropWhile (· == '\t') else l
    let body := lines.takeWhile (· != delimiter.toList)
    let left := ['\n'].intercalate ((linesOf below).drop (body.length + 1))
    let ended := body.length < lines.length
    let ahead := (linesOf below).length - (linesOf left).length
    set { s with rest := current ++ '\n' :: left, ahead := s.ahead + ahead }
    return if ended then body.flatMap (· ++ ['\n']) else ['\n'].intercalate body

mutual

/-- The rest of an unquoted word. -/
def wordRest : (fuel : Nat) → Word → Reader Word
  | 0, acc => return acc.reverse
  | fuel + 1, acc => do
    match ← peek with
    | none => return acc.reverse
    | some c =>
      if isMeta c then return acc.reverse
      let _ ← next
      match c with
      | '\'' => wordRest fuel (.text (← untilQuote fuel []) true :: acc)
      | '"' => wordRest fuel ((← doubleQuoted fuel [.text "" true]) ++ acc)
      | '\\' =>
        match ← next with
        | none => wordRest fuel (push false '\\' acc)
        | some '\n' => wordRest fuel acc
        | some d => wordRest fuel (push true d acc)
      | '$' => wordRest fuel ((← dollar fuel false) :: acc)
      | '\x60' => wordRest fuel ((← backQuoted fuel false) :: acc)
      | c => wordRest fuel (push false c acc)

/-- What is between double quotes, the last part first. -/
def doubleQuoted : (fuel : Nat) → Word → Reader Word
  | 0, acc => return acc
  | fuel + 1, acc => do
    match ← next with
    | none => fail "Unterminated quoted string"
    | some '"' => return acc
    | some '\\' =>
      match ← next with
      | none => fail "Unterminated quoted string"
      | some '\n' => doubleQuoted fuel acc
      | some c =>
        if "$\x60\"\\".toList.contains c then doubleQuoted fuel (push true c acc)
        else doubleQuoted fuel (push true c (push true '\\' acc))
    | some '$' => doubleQuoted fuel ((← dollar fuel true) :: acc)
    | some '\x60' => doubleQuoted fuel ((← backQuoted fuel true) :: acc)
    | some c => doubleQuoted fuel (push true c acc)

/-- The word in the braces of a parameter, the last part first. -/
def braced (quoted : Bool) : (fuel : Nat) → Word → Reader Word
  | 0, acc => return acc
  | fuel + 1, acc => do
    match ← next with
    | none => fail "Missing '\x7d'"
    | some '\x7d' => return acc
    | some '\\' =>
      match ← next with
      | none => fail "Missing '\x7d'"
      | some '\n' => braced quoted fuel acc
      | some c =>
        if !quoted || "$\x60\"\\\x7d".toList.contains c then
          braced quoted fuel (push true c acc)
        else braced quoted fuel (push true c (push true '\\' acc))
    | some '"' => braced quoted fuel ((← doubleQuoted fuel [.text "" true]) ++ acc)
    | some '$' => braced quoted fuel ((← dollar fuel quoted) :: acc)
    | some '\x60' => braced quoted fuel ((← backQuoted fuel quoted) :: acc)
    | some c =>
      if c == '\'' && !quoted then
        braced quoted fuel (.text (← untilQuote fuel []) true :: acc)
      else braced quoted fuel (push quoted c acc)

/-- An arithmetic expression inside `depth` parentheses, the last part first. -/
def arithmetic : (fuel depth : Nat) → Word → Reader Word
  | 0, _, acc => return acc
  | fuel + 1, depth, acc => do
    match ← next with
    | none => fail "Missing '))'"
    | some '(' => arithmetic fuel (depth + 1) (push true '(' acc)
    | some ')' =>
      match depth with
      | 0 => if ← accept ")" then return acc else fail "Missing '))'"
      | depth + 1 => arithmetic fuel depth (push true ')' acc)
    | some '$' => arithmetic fuel depth ((← dollar fuel true) :: acc)
    | some '\x60' => arithmetic fuel depth ((← backQuoted fuel true) :: acc)
    | some '"' => arithmetic fuel depth acc
    | some c => arithmetic fuel depth (push true c acc)

/-- The parts of a document that is not quoted, the last one first. -/
def document : (fuel : Nat) → Word → Reader Word
  | 0, acc => return acc
  | fuel + 1, acc => do
    match ← next with
    | none => return acc
    | some '\\' =>
      match ← next with
      | none => return push true '\\' acc
      | some '\n' => document fuel acc
      | some c =>
        if c == '$' || c == '\x60' || c == '\\' then document fuel (push true c acc)
        else document fuel (push true c (push true '\\' acc))
    | some '$' => document fuel ((← dollar fuel true) :: acc)
    | some '\x60' => document fuel ((← backQuoted fuel true) :: acc)
    | some c => document fuel (push true c acc)

/-- What a dollar sign stands for. -/
def dollar : (fuel : Nat) → (quoted : Bool) → Reader Part
  | 0, quoted => return .text "$" quoted
  | fuel + 1, quoted => do
    if ← accept "((" then return .arithmetic (← arithmetic fuel 0 []).reverse quoted
    else if ← accept "(" then
      skipLines fuel
      let body ← if ← sees ")" then pure [] else do pure [← commandList fuel]
      expectOperator ")"
      return .output body quoted
    else if ← accept "\x7b" then parameter fuel quoted
    else
      match ← parameterName false with
      | some name => return .parameter name .plain quoted
      | none => return .text "$" quoted

/-- A parameter in braces. -/
def parameter : (fuel : Nat) → (quoted : Bool) → Reader Part
  | 0, quoted => return .text "" quoted
  | fuel + 1, quoted => do
    let length := (← sees "#") && !(← sees "#\x7d") && !(← sees "#:") && !(← sees "#-")
    if length then
      let _ ← next
    match ← parameterName true with
    | none =>
      let _ ← braced quoted fuel []
      return .parameter "" .bad quoted
    | some name =>
      if length then
        if ← accept "\x7d" then return .parameter name .length quoted
        let _ ← braced quoted fuel []
        return .parameter name .bad quoted
      let colon ← accept ":"
      match ← next with
      | none => fail "Missing '\x7d'"
      | some c =>
        match fallback? c with
        | some kind =>
          return .parameter name (.fallback kind colon (← braced quoted fuel []).reverse) quoted
        | none =>
          if colon then
            let _ ← braced quoted fuel []
            return .parameter name .bad quoted
          else if c == '\x7d' then return .parameter name .plain quoted
          else if c == '%' || c == '#' then
            let longest ← accept c.toString
            let pattern := (← braced false fuel []).reverse
            return .parameter name (.trimmed (c == '%') longest pattern) quoted
          else
            let _ ← braced quoted fuel []
            return .parameter name .bad quoted

/-- Commands in back quotes. -/
def backQuoted : (fuel : Nat) → (quoted : Bool) → Reader Part
  | 0, quoted => return .text "" quoted
  | fuel + 1, quoted => do
    let line := (← get).line
    let text ← untilBackQuote quoted fuel []
    let outer ← get
    set { rest := text, line : Source }
    skipLines fuel
    let body ← if (← peek).isNone then pure [] else do pure [← commandList fuel]
    skipBlanks
    if (← peek).isSome then unexpected none
    set outer
    return .output body quoted

/-- A redirection, if one is next. -/
def redirection? : (fuel : Nat) → Reader (Option Redirection)
  | 0 => return none
  | fuel + 1 => do
    let digits := (← get).rest.takeWhile Char.isDigit
    let after := (← get).rest.drop digits.length
    if after.head? != some '<' && after.head? != some '>' then return none
    modify fun s => { s with rest := after }
    let number := Nat.ofDigitChars 10 digits 0
    let stream (usual : Nat) : Nat := if digits.isEmpty then usual else number
    let simple (usual : Nat) (opening : Opening) : Reader (Option Redirection) := do
      skipBlanks
      let word ← wordRest fuel []
      if word.isEmpty then unexpected none
      return some (.mk (stream usual) opening word)
    if (← accept "<<-") then
      return some (.mk (stream 0) .document (← documentAfter fuel true))
    else if (← accept "<<") then
      return some (.mk (stream 0) .document (← documentAfter fuel false))
    else if (← accept "<&") then simple 0 .duplicate
    else if (← accept "<>") then simple 0 .read
    else if (← accept "<") then simple 0 .read
    else if (← accept ">&") then simple 1 .duplicate
    else if (← accept ">>") then simple 1 .append
    else if (← accept ">|") then simple 1 .write
    else if (← accept ">") then simple 1 .write
    else return none

/-- The word of a document whose delimiter is next. -/
def documentAfter : (fuel : Nat) → (strip : Bool) → Reader Word
  | 0, _ => return []
  | fuel + 1, strip => do
    skipBlanks
    let word ← wordRest fuel []
    if word.isEmpty then unexpected none
    let (delimiter, quoted) := plain word
    let body ← takeDocument delimiter strip
    if quoted then return [.text (String.ofList body) true]
    let outer ← get
    set { rest := body, line := outer.line : Source }
    let parts ← document fuel []
    set outer
    return parts.reverse

/-- Redirections after a command. -/
def redirections : (fuel : Nat) → Reader (List Redirection)
  | 0 => return []
  | fuel + 1 => do
    skipBlanks
    match ← redirection? fuel with
    | some r => return r :: (← redirections fuel)
    | none => return []

/-- The words and redirections of a simple command, given those read before. -/
def simple : (fuel line : Nat) → List (String × Word) → List Word → List Redirection →
    Reader Command
  | 0, line, as, ws, rs => return .simple line as.reverse ws.reverse rs.reverse
  | fuel + 1, line, as, ws, rs => do
    skipBlanks
    match ← redirection? fuel with
    | some r => simple fuel line as ws (r :: rs)
    | none =>
      match ← peek with
      | none => return .simple line as.reverse ws.reverse rs.reverse
      | some c =>
        if c == '(' && ws.length == 1 && as.isEmpty && rs.isEmpty then
          definition fuel (plain (ws.headD [])).1
        else if isMeta c then return .simple line as.reverse ws.reverse rs.reverse
        else
          let word ← wordRest fuel []
          match if ws.isEmpty then assignment? word else none with
          | some a => simple fuel line (a :: as) ws rs
          | none => simple fuel line as (word :: ws) rs

/-- A function of a name, from its parentheses on. -/
def definition : (fuel : Nat) → (name : String) → Reader Command
  | 0, _ => return default
  | fuel + 1, name => do
    let _ ← accept "("
    skipBlanks
    if (← peekWord).isSome then fail "word unexpected (expecting \")\")"
    expectOperator ")"
    if !isName name then fail "Bad function name"
    skipLines fuel
    return .define name (← command fuel)

/-- The branches of a conditional after its first word. -/
def conditional : (fuel : Nat) → Reader Command
  | 0 => return default
  | fuel + 1 => do
    let condition ← commandList fuel
    expectWord "then"
    let body ← commandList fuel
    skipBlanks
    match ← peekWord with
    | some "elif" =>
      let _ ← accept "elif"
      return .branch condition body (some (← conditional fuel))
    | some "else" =>
      let _ ← accept "else"
      let otherwise ← commandList fuel
      expectWord "fi"
      return .branch condition body (some otherwise)
    | _ =>
      expectWord "fi"
      return .branch condition body none

/-- The words up to the end of a line or a semicolon. -/
def wordsRest : (fuel : Nat) → Reader (List Word)
  | 0 => return []
  | fuel + 1 => do
    skipBlanks
    match ← peek with
    | none => return []
    | some c =>
      if c == ';' || c == '\n' then
        let _ ← next
        return []
      else if isMeta c then unexpected none
      else
        let word ← wordRest fuel []
        return word :: (← wordsRest fuel)

/-- A body between `do` and `done`. -/
def loopBody : (fuel : Nat) → Reader Command
  | 0 => return default
  | fuel + 1 => do
    skipLines fuel
    expectWord "do"
    let body ← commandList fuel
    expectWord "done"
    return body

/-- A loop over words, after its first word. -/
def iteration : (fuel : Nat) → Reader Command
  | 0 => return default
  | fuel + 1 => do
    skipBlanks
    match ← peekWord with
    | none => fail "Bad for loop variable"
    | some name =>
      if !isName name then fail "Bad for loop variable"
      let _ ← accept name
      skipLines fuel
      if (← peekWord) == some "in" then
        let _ ← accept "in"
        let words ← wordsRest fuel
        return .each name (some words) (← loopBody fuel)
      else
        let _ ← accept ";"
        return .each name none (← loopBody fuel)

/-- The patterns of a case up to the parenthesis. -/
def patterns : (fuel : Nat) → Reader (List Word)
  | 0 => return []
  | fuel + 1 => do
    skipBlanks
    let word ← wordRest fuel []
    if word.isEmpty then unexpected (some ")")
    skipBlanks
    if ← accept "|" then return word :: (← patterns fuel)
    else
      expectOperator ")"
      return [word]

/-- The cases of a choice. -/
def cases : (fuel : Nat) → Reader (List (List Word × Command))
  | 0 => return []
  | fuel + 1 => do
    skipLines fuel
    if (← peekWord) == some "esac" then
      let _ ← accept "esac"
      return []
    let _ ← accept "("
    let found ← patterns fuel
    skipLines fuel
    let body ← if ← atClosing then pure (.sequence []) else commandList fuel
    skipBlanks
    if ← accept ";;" then return (found, body) :: (← cases fuel)
    else
      skipLines fuel
      if (← peekWord) == some "esac" then
        let _ ← accept "esac"
        return [(found, body)]
      else unexpected (some ";;")

/-- A command with its redirections. -/
def command : (fuel : Nat) → Reader Command
  | 0 => return default
  | fuel + 1 => do
    skipBlanks
    let start ← peekWord
    let compound (c : Command) : Reader Command := do
      let rs ← redirections fuel
      return if rs.isEmpty then c else .redirected c rs
    match start with
    | some "if" =>
      let _ ← accept "if"
      compound (← conditional fuel)
    | some "while" =>
      let _ ← accept "while"
      let condition ← commandList fuel
      compound (.loop true condition (← loopBody fuel))
    | some "until" =>
      let _ ← accept "until"
      let condition ← commandList fuel
      compound (.loop false condition (← loopBody fuel))
    | some "for" =>
      let _ ← accept "for"
      compound (← iteration fuel)
    | some "case" =>
      let _ ← accept "case"
      skipBlanks
      let subject ← wordRest fuel []
      if subject.isEmpty then unexpected none
      skipLines fuel
      expectWord "in"
      compound (.choice subject (← cases fuel))
    | some "\x7b" =>
      let _ ← accept "\x7b"
      let body ← commandList fuel
      expectWord "\x7d"
      compound body
    | _ =>
      if ← accept "(" then
        let body ← commandList fuel
        expectOperator ")"
        compound (.subshell body)
      else if start.any (reserved.contains ·) then unexpected none
      else
        let line := (← get).line
        match ← simple fuel line [] [] [] with
        | .simple _ [] [] [] => unexpected none
        | c => return c

/-- Commands joined by pipes. -/
def pipelineRest : (fuel : Nat) → Reader (List Command)
  | 0 => return []
  | fuel + 1 => do
    let first ← command fuel
    skipBlanks
    if ← sees "||" then return [first]
    else if ← accept "|" then
      skipLines fuel
      return first :: (← pipelineRest fuel)
    else return [first]

/-- Commands joined by pipes, perhaps with their status turned around. -/
def pipeline : (fuel : Nat) → Reader Command
  | 0 => return default
  | fuel + 1 => do
    skipBlanks
    let negated := (← peekWord) == some "!"
    if negated then
      let _ ← accept "!"
    let commands ← pipelineRest fuel
    let joined := match commands with
      | [c] => c
      | cs => .pipeline cs
    return if negated then .negated joined else joined

/-- Pipelines that depend on the one before them. -/
def chainRest : (fuel : Nat) → Command → Reader Command
  | 0, first => return first
  | fuel + 1, first => do
    skipBlanks
    if ← accept "&&" then
      skipLines fuel
      chainRest fuel (.chain true first (← pipeline fuel))
    else if ← accept "||" then
      skipLines fuel
      chainRest fuel (.chain false first (← pipeline fuel))
    else return first

/-- The commands of a list up to what ends it, or up to the end of the line. -/
def listRest : (fuel : Nat) → (oneLine : Bool) → Reader (List Command)
  | 0, _ => return []
  | fuel + 1, oneLine => do
    let first ← chainRest fuel (← pipeline fuel)
    skipBlanks
    let divided ← if ← sees ";;" then pure false else accept ";"
    let background ← if divided then pure false else accept "&"
    let first := if background then Command.background first else first
    let newline := (← do skipBlanks; peek) == some '\n'
    if oneLine then
      if newline || (← peek).isNone then
        let _ ← next
        return [first]
      else if divided || background then return first :: (← listRest fuel oneLine)
      else unexpected none
    else if divided || background || newline then
      skipLines fuel
      if ← atClosing then return [first] else return first :: (← listRest fuel oneLine)
    else return [first]

/-- A list of commands inside another command; it is empty only at the end of the script. -/
def commandList : (fuel : Nat) → Reader Command
  | 0 => return default
  | fuel + 1 => do
    skipLines fuel
    if (← peek).isNone then return .sequence []
    return .sequence (← listRest fuel false)

end

/-- The lines of a script, at most as many as `fuel`, each read with that much fuel. -/
def scriptLines (reach : Nat) : (fuel : Nat) → Source → Script
  | 0, _ => ⟨[], none⟩
  | fuel + 1, source =>
    match (skipLines reach).run source with
    | .error e => ⟨[], some e⟩
    | .ok (_, source) =>
      if source.rest.isEmpty then ⟨[], none⟩
      else
        match (listRest reach true).run source with
        | .error e => ⟨[], some e⟩
        | .ok (commands, source) =>
          let below := scriptLines reach fuel source
          { below with lines := .sequence commands :: below.lines }

end Reader

/-- Reads a script. -/
def Script.read (text : String) : Script :=
  let reach := 12 * text.length + 64
  Reader.scriptLines reach (text.length + 1) { rest := text.toList }

end Shell
end Metrology
