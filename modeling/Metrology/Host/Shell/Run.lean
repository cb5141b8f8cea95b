import Metrology.Host.Shell.Builtin
import Metrology.Host.Shell.Invocation
import Metrology.Host.Shell.Stream
import Metrology.Host.Utility

/-!
# Running scripts

How a shell expands words, redirects streams and runs commands.  The functions
call one another through commands inside words, so they share one argument of
fuel, of which every level of nesting and every turn of a loop takes one.

This is a part of the shell of the host in memory, on which no theorem about
sessions rests.
-/

namespace Metrology
namespace Shell

open Routine Builtin

/-- The values of a list parameter as pieces of a word. -/
def argumentAtoms (args : List String) (quoted : Bool) : List Atom :=
  let fields := args.map fun a => if quoted then .mark :: atoms a true else a.toList.map .loose
  [Atom.divide].intercalate fields

/-- Pieces of a word in the place of a value. -/
def asValue (quoted : Bool) (as : List Atom) : List Atom :=
  if quoted then as
  else as.map fun
    | .char c false => .loose c
    | a => a

/-- Runs a utility with the streams of the shell. -/
def runUtility (p : Program) (name : String) (args : List String) : Routine Unit := do
  let s ← get
  let left := p.runUtility ⟨name, args, s.input, s.tree⟩
  set { s with input := left.input, tree := left.tree }
  write 1 left.output
  write 2 left.complaint
  finish left.status

/-- Writes what a shell takes a name for. -/
def describe (s : State) (name : String) : Routine Unit := do
  let kind :=
    if Reader.reserved.contains name then some "a shell keyword"
    else if (s.functions.lookup name).isSome then some "a shell function"
    else if special.contains name then some "a special shell builtin"
    else if (ofName? name).isSome || running.contains name then some "a shell builtin"
    else
      match s.tree.program? name with
      | .ok _ => some (if name.toList.contains '/' then name else "/usr/bin/" ++ name)
      | .error _ => none
  match kind with
  | some kind => write 1 (Utf8.encode s!"{name} is {kind}\n")
  | none =>
    write 1 (Utf8.encode s!"{name}: not found\n")
    finish 127

/-- Shows a command of a shell that shows them. -/
def trace (words : List String) : Routine Unit := do
  if (← get).tracing then write 2 (Utf8.encode ("+ " ++ " ".intercalate words ++ "\n"))

mutual

/-- The pieces of a word. -/
def expand : (fuel : Nat) → Word → Routine (List Atom)
  | 0, _ => return []
  | _, [] => return []
  | fuel + 1, .text "" true :: .parameter "@" .plain true :: rest =>
    return argumentAtoms (← get).arguments true ++ (← expand fuel rest)
  | fuel + 1, part :: rest => do
    let found ← expandPart fuel part
    return found ++ (← expand fuel rest)

/-- The pieces of a part. -/
def expandPart : (fuel : Nat) → Part → Routine (List Atom)
  | 0, _ => return []
  | fuel + 1, part => do
    if !(← isRunning) then return []
    match part with
    | .text s quoted => return if quoted then .mark :: atoms s true else atoms s false
    | .parameter name use quoted => expandParameter fuel name use quoted
    | .output commands quoted =>
      let before := (← get).status
      let bytes ← collect (separately (runAll fuel commands))
      modify fun s => { s with outputStatus := some s.status, status := before }
      let text := (Utf8.decodeLossy (bytes.filter (· != 0))).toList
      let kept := (text.reverse.dropWhile (· == '\n')).reverse
      return valueAtoms (String.ofList kept) quoted
    | .arithmetic expression quoted =>
      let text := textOf (Fields.whole (← expand fuel expression))
      match Arithmetic.read text with
      | .error e =>
        abandon s!"arithmetic expression: {e}: \"{text}\""
        return []
      | .ok e =>
        match (Arithmetic.evaluate e).run (← get).values with
        | .ok (n, values) =>
          modify fun s => { s with values }
          return valueAtoms (toString n.toInt) quoted
        | .error .divisionByZero =>
          abandon s!"arithmetic expression: division by zero: \"{text}\""
          return []
        | .error (.illegalNumber number) =>
          abandon ("Illegal number: " ++ number)
          return []

/-- The pieces of a parameter. -/
def expandParameter : (fuel : Nat) → String → Use → Bool → Routine (List Atom)
  | 0, _, _, _ => return []
  | fuel + 1, name, use, quoted => do
    let s ← get
    let isList := name == "@" || name == "*"
    let value ← if isList then
        pure (if s.arguments.isEmpty then none else some (" ".intercalate s.arguments))
      else parameter? name
    let shown (text : String) : List Atom :=
      if name == "@" then argumentAtoms s.arguments quoted
      else if name == "*" then
        if quoted then
          let divider := ((s.values.get? "IFS").getD " ").toList.take 1
          atoms ((String.ofList divider).intercalate s.arguments) true
        else argumentAtoms s.arguments false
      else valueAtoms text quoted
    let demand : Routine (List Atom) := do
      if value.isNone && s.demanding && !isList then
        abandon (name ++ ": parameter not set")
        return []
      else return value.elim [] shown
    match use with
    | .plain => demand
    | .length =>
      if value.isNone && s.demanding && !isList then demand
      else return atoms (toString (value.getD "").utf8ByteSize) quoted
    | .bad =>
      abandon "Bad substitution"
      return []
    | .fallback kind emptyToo word =>
      let missing := value.isNone || (emptyToo && value == some "")
      match kind with
      | .value =>
        if missing then return asValue quoted (← expand fuel word) else return value.elim [] shown
      | .alternative =>
        if missing then return [] else return asValue quoted (← expand fuel word)
      | .assign =>
        if missing then
          let text := textOf (Fields.whole (← expand fuel word))
          if Reader.isName name then
            assign name text
            return valueAtoms text quoted
          else
            abandon (name ++ ": bad variable name")
            return []
        else return value.elim [] shown
      | .complaint =>
        if missing then
          let text := textOf (Fields.whole (← expand fuel word))
          let usual := if emptyToo then "parameter not set or null" else "parameter not set"
          abandon (name ++ ": " ++ (if word.isEmpty then usual else text))
          return []
        else return value.elim [] shown
    | .trimmed atEnd longest pattern =>
      match value with
      | none => demand
      | some text =>
        let pattern := Fields.whole (← expand fuel pattern)
        return valueAtoms (Pattern.trim atEnd longest pattern text) quoted

/-- The text of a word that is not split. -/
def expandText : (fuel : Nat) → Word → Routine String
  | 0, _ => return ""
  | fuel + 1, word => do return textOf (Fields.whole (← expand fuel word))

/-- The fields of some words. -/
def expandFields : (fuel : Nat) → List Word → Routine (List String)
  | 0, _ => return []
  | _, [] => return []
  | fuel + 1, word :: rest => do
    let found ← expand fuel word
    let fields := (Fields.split (← separators) found).map textOf
    return fields ++ (← expandFields fuel rest)

/-- Carries out assignments and shows what they assign. -/
def assignWords : (fuel : Nat) → List (String × Word) → Routine (List String)
  | 0, _ => return []
  | _, [] => return []
  | fuel + 1, (name, word) :: rest => do
    let text ← expandText fuel word
    if ← isRunning then
      assign name text
      return (name ++ "=" ++ text) :: (← assignWords fuel rest)
    else return []

/-- Carries out redirections until one fails. -/
def redirect : (fuel : Nat) → List Redirection → Routine Bool
  | 0, _ => return false
  | _, [] => return true
  | fuel + 1, .mk stream opening word :: rest => do
    let target ← expandText fuel word
    if !(← isRunning) then return false
    if ← openFor stream opening target then redirect fuel rest else return false

/-- Runs an action with redirected streams and puts them back. -/
def redirected : (fuel : Nat) → List Redirection → Routine Unit → Routine Unit
  | 0, _, _ => return
  | _, [], action => action
  | fuel + 1, redirections, action => do
    let before ← get
    if ← redirect fuel redirections then action else finish 2
    modify fun s => { s with
      sinks := before.sinks
      input := if redirections.any Redirection.isInput then before.input else s.input }

/-- Runs a command by its name: a function, a built-in command or a program. -/
def call : (fuel : Nat) → (functions : Bool) → String → List String → Routine Unit
  | 0, _, _, _ => return
  | fuel + 1, functions, name, args => do
    let s ← get
    match if functions then s.functions.lookup name else none with
    | some body =>
      set { s with arguments := args, loops := 0, hidden := [] }
      run fuel body
      let hidden := (← get).hidden
      hidden.forM restore
      modify fun t => { t with
        arguments := s.arguments, loops := s.loops, hidden := s.hidden
        flow := if t.flow = .returning then .running else t.flow }
    | none =>
      match name with
      | "eval" =>
        let text := " ".intercalate args
        finish 0
        runScript fuel "eval: " (Script.read text)
      | "command" =>
        match args with
        | "-v" :: wanted :: _ =>
          if (ofName? wanted).isSome || running.contains wanted then
            write 1 (Utf8.encode (wanted ++ "\n"))
            finish 0
          else
            match s.tree.program? wanted with
            | .ok _ =>
              let path := if wanted.toList.contains '/' then wanted else "/usr/bin/" ++ wanted
              write 1 (Utf8.encode (path ++ "\n"))
              finish 0
            | .error _ => finish 127
        | wanted :: args => call fuel false wanted args
        | [] => finish 0
      | "type" =>
        finish 0
        args.forM (describe s)
      | "exec" =>
        match args with
        | [] => finish 0
        | wanted :: args =>
          runProgram fuel true wanted args
          if ← isRunning then endWith (.code (← get).status)
      | "." =>
        match s.tree.readText (args.headD "") with
        | .ok text => runScript fuel "" (Script.read text)
        | .error _ => abandonAs "." ("cannot open " ++ args.headD "" ++ ": No such file")
      | name =>
        match ofName? name with
        | some action => action args
        | none => runProgram fuel false name args

/-- Runs a program, which may take the place of the shell. -/
def runProgram : (fuel : Nat) → (instead : Bool) → String → List String → Routine Unit
  | 0, _, _, _ => return
  | fuel + 1, instead, name, args => do
    let s ← get
    let heading := if instead then "exec: " else ""
    if name == "" then
      fail (heading ++ ": Permission denied") 127
      return
    match s.tree.program? name with
    | .error .denied => fail (heading ++ name ++ ": Permission denied") 126
    | .error _ => fail (heading ++ name ++ ": not found") 127
    | .ok .shell =>
      match Invocation.read name [] args with
      | .error text =>
        write 2 (Utf8.encode s!"{name}: 0: {text}\n")
        finish 2
      | .ok invocation =>
        let given := s.values.entries.filter fun v => s.exported.contains v.1
        let process := if instead then s.process else s.process + 1
        let parents := if instead then s.parents else s.process :: s.parents
        let parent := toString (parents.headD 1)
        set { s with process, parents, values := (SortedMap.ofList given).insert "PPID" parent }
        runInvocation fuel invocation
        let after ← get
        set { s with
          input := after.input, output := after.output, complaint := after.complaint
          collected := after.collected, tree := after.tree, status := after.status
          struck := after.struck, flow := if instead then after.flow else .running }
        match after.struck with
        | some (process, n) =>
          if process = s.process then
            endWith (.signal n)
            return
        | none => pure ()
        match after.flow with
        | .ended (.code n) => finish n
        | .ended (.signal n) =>
          if !instead then
            if n != 2 && n != 13 then write 2 (Utf8.encode (Signal.description n ++ "\n"))
            finish (128 + n)
        | _ => pure ()
    | .ok p => runUtility p name args

/-- Runs a shell that was started with arguments, to its end. -/
def runInvocation : (fuel : Nat) → Invocation → Routine Unit
  | 0, _ => return
  | fuel + 1, i => do
    let s ← get
    let (text, input) := match i.script with
      | some text => (text, s.input)
      | none => (Utf8.decodeLossy s.input, [])
    set { s with
      name := i.name, arguments := i.arguments, input
      functions := [], status := 0, line := 1, flow := .running, loops := 0, hidden := []
      traps := [], pending := [], fixed := [], guarded := false
      strict := i.letters.contains 'e', demanding := i.letters.contains 'u'
      tracing := i.letters.contains 'x' }
    let script := Script.read text
    runScript fuel "" (if i.letters.contains 'n' then { script with lines := [] } else script)
    let after ← get
    match after.flow, after.traps.lookup (Signal.key 0) with
    | .ended (.signal _), _ => pure ()
    | flow, trap =>
      let status := match flow with
        | .ended (.code n) => n
        | _ => after.status
      match trap with
      | none => endWith (.code status)
      | some action =>
        set { after with flow := .running, status, traps := [] }
        runScript fuel "" (Script.read action)
        if ← isRunning then endWith (.code status)

/-- Runs the lines of a script; one that cannot be read ends the shell. -/
def runScript : (fuel : Nat) → (heading : String) → Script → Routine Unit
  | 0, _, _ => return
  | fuel + 1, heading, script => do
    runAll fuel script.lines
    if ← isRunning then
      match script.error with
      | some e =>
        modify fun s => { s with line := e.line }
        abandon (heading ++ e.text)
      | none => pure ()

/-- Runs commands one after the other while the shell runs. -/
def runAll : (fuel : Nat) → List Command → Routine Unit
  | 0, _ => return
  | _, [] => return
  | fuel + 1, c :: rest => do
    run fuel c
    if ← isRunning then runAll fuel rest

/-- Runs a simple command. -/
def runSimple : (fuel line : Nat) → List (String × Word) → List Word → List Redirection →
    Routine Unit
  | 0, _, _, _, _ => return
  | fuel + 1, line, assignments, words, redirections => do
    modify fun s => { s with line, outputStatus := none }
    let fields ← expandFields fuel words
    if !(← isRunning) then return
    match fields with
    | [] =>
      redirected fuel redirections do
        let made ← assignWords fuel assignments
        if !made.isEmpty then trace made
        finish ((← get).outputStatus.getD 0)
    | name :: args =>
      let lasting := special.contains name && ((← get).functions.lookup name).isNone
      if name == "exec" && args.isEmpty then
        trace [name]
        if ← redirect fuel redirections then finish 0 else endWith (.code 2)
      else
        let before ← get
        let streams := before.sinks
        redirected fuel redirections do
          let saved := assignments.map fun a => (a.1, before.values.get? a.1)
          let names := assignments.map Prod.fst
          let made ← assignWords fuel assignments
          let inside := (← get).sinks
          modify fun s => { s with sinks := streams }
          trace (made ++ name :: args)
          modify fun s => { s with sinks := inside }
          modify fun s => { s with exported := names ++ s.exported }
          if ← isRunning then call fuel true name args
          modify fun s => { s with exported := names.foldl List.erase s.exported }
          if !lasting then saved.forM restore

/-- Runs what signals have left to do. -/
def runPending : (fuel : Nat) → Routine Unit
  | 0 => return
  | fuel + 1 => do
    let s ← get
    match s.pending with
    | [] => return
    | action :: rest =>
      set { s with pending := rest }
      runScript fuel "" (Script.read action)
      if ← isRunning then
        finish s.status
        runPending fuel

/-- Runs a command. -/
def run : (fuel : Nat) → Command → Routine Unit
  | 0, _ => endWith (.code 255)
  | fuel + 1, command => do
    match command with
    | .simple line assignments words redirections =>
      runSimple fuel line assignments words redirections
      if ← isRunning then runPending fuel
      checkFailure
    | .redirected command redirections => redirected fuel redirections (run fuel command)
    | .sequence commands => runAll fuel commands
    | .subshell body =>
      separately (run fuel body)
      checkFailure
    | .pipeline commands =>
      runPipeline fuel commands
      checkFailure
    | .negated command =>
      unguarded (run fuel command)
      if ← isRunning then finish (if (← get).status = 0 then 1 else 0)
    | .chain ifSuccess first second =>
      unguarded (run fuel first)
      if (← isRunning) && ((← get).status = 0) = ifSuccess then run fuel second
    | .background command =>
      feeding [] (separately (run fuel command))
      finish 0
    | .branch condition body otherwise =>
      unguarded (run fuel condition)
      if ← isRunning then
        if (← get).status = 0 then run fuel body
        else
          match otherwise with
          | some other => run fuel other
          | none => finish 0
    | .loop whileSuccess condition body =>
      modify fun s => { s with loops := s.loops + 1 }
      repeatBody fuel whileSuccess condition body 0
      modify fun s => { s with loops := s.loops - 1 }
    | .each name words body =>
      let fields ← match words with
        | some words => expandFields fuel words
        | none => do pure (← get).arguments
      if ← isRunning then
        finish 0
        modify fun s => { s with loops := s.loops + 1 }
        iterate fuel name fields body
        modify fun s => { s with loops := s.loops - 1 }
    | .choice subject cases =>
      let text ← expandText fuel subject
      if ← isRunning then
        finish 0
        chooseCase fuel text cases
    | .define name body =>
      modify fun s => { s with
        functions := (name, body) :: s.functions.filter fun f => f.1 != name }
      finish 0

/-- Runs commands of which each one reads what the one before it writes. -/
def runPipeline : (fuel : Nat) → List Command → Routine Unit
  | 0, _ => return
  | _, [] => return
  | fuel + 1, [c] => separately (run fuel c)
  | fuel + 1, c :: rest => do
    let bytes ← collect (separately (run fuel c))
    if ← isRunning then feeding bytes (runPipeline fuel rest)

/-- Runs the turns of a loop from some status on. -/
def repeatBody : (fuel : Nat) → (whileSuccess : Bool) → Command → Command → Nat → Routine Unit
  | 0, _, _, _, _ => endWith (.code 255)
  | fuel + 1, whileSuccess, condition, body, status => do
    unguarded (run fuel condition)
    if ← isRunning then
      if ((← get).status = 0) = whileSuccess then
        run fuel body
      else
        finish status
        return
    let s ← get
    match s.flow with
    | .running => repeatBody fuel whileSuccess condition body s.status
    | .leaving n again =>
      if 1 < n then set { s with flow := .leaving (n - 1) again }
      else
        set { s with flow := .running }
        if again then repeatBody fuel whileSuccess condition body s.status
    | _ => pure ()

/-- Runs the turns of a loop over fields. -/
def iterate : (fuel : Nat) → String → List String → Command → Routine Unit
  | 0, _, _, _ => endWith (.code 255)
  | _, _, [], _ => return
  | fuel + 1, name, field :: rest, body => do
    assign name field
    run fuel body
    let s ← get
    match s.flow with
    | .running => iterate fuel name rest body
    | .leaving n again =>
      if 1 < n then set { s with flow := .leaving (n - 1) again }
      else
        set { s with flow := .running }
        if again then iterate fuel name rest body
    | _ => pure ()

/-- Runs the first case that matches a text. -/
def chooseCase : (fuel : Nat) → String → List (List Word × Command) → Routine Unit
  | 0, _, _ => return
  | _, _, [] => return
  | fuel + 1, text, (patterns, body) :: rest => do
    if ← matchesAny fuel text patterns then run fuel body else chooseCase fuel text rest

/-- Whether one of some patterns matches a text. -/
def matchesAny : (fuel : Nat) → String → List Word → Routine Bool
  | 0, _, _ => return false
  | _, _, [] => return false
  | fuel + 1, text, pattern :: rest => do
    let letters := Fields.whole (← expand fuel pattern)
    if Pattern.isMatch letters text then return true else matchesAny fuel text rest

end

/-- The fuel of a shell: more nesting and more turns of a loop than a script for a tool has. -/
def fuel : Nat := 10000

/-- The number of the first process. -/
def firstProcess : Nat := 4711

end Shell

/-- Runs a program called by `name` in a tree. -/
def Program.run (p : Program) (name : String) (arguments : List String) (input : List UInt8)
    (tree : FileTree) : Finished × FileTree :=
  match p with
  | shell =>
    match Shell.Invocation.read name [] arguments with
    | .error text => (⟨.code 2, [], Utf8.encode s!"{name}: 0: {text}\n"⟩, tree)
    | .ok invocation =>
      let directory := "/" ++ "/".intercalate tree.workingDirectory
      let values := SortedMap.ofList
        [("PATH", "/usr/local/sbin:/usr/local/bin:/usr/sbin:/usr/bin:/sbin:/bin"),
          ("PWD", directory), ("OPTIND", "1"), ("PPID", "1")]
      let start : Shell.State :=
        { name, process := Shell.firstProcess, arguments := [], values, input, tree
          exported := ["PATH", "PWD"] }
      let s := ((Shell.runInvocation Shell.fuel invocation).run start).2
      let status := match s.flow with
        | .ended status => status
        | _ => .code s.status
      (⟨status, s.output, s.complaint⟩,
        { s.tree with workingDirectory := tree.workingDirectory })
  | p =>
    let left := p.runUtility ⟨name, arguments, input, tree⟩
    (⟨.code left.status, left.output, left.complaint⟩, left.tree)

end Metrology
