/-!
# Starting a shell

The arguments of a shell: options, then a script or the name of its file, then
the arguments of the script.

This is a part of the shell of the host in memory, on which no theorem about
sessions rests.
-/

namespace Metrology
namespace Shell

/-- A shell that was started with arguments. -/
structure Invocation where
  name : String
  /-- The script, if it does not come from the input. -/
  script : Option String
  arguments : List String
  letters : List Char

/-- A shell that was started with some options and other arguments. -/
def Invocation.ofArguments (name : String) (letters : List Char) : List String →
    Except String Invocation
  | [] =>
    if letters.contains 'c' then .error "-c requires an argument"
    else .ok ⟨name, none, [], letters⟩
  | arg :: rest =>
    if letters.contains 'c' then .ok ⟨rest.headD name, some arg, rest.tail, letters⟩
    else if letters.contains 's' then .ok ⟨name, none, arg :: rest, letters⟩
    else .error s!"cannot open {arg}: No such file"

/-- Reads the arguments that a shell was started with. -/
def Invocation.read (name : String) (letters : List Char) : List String →
    Except String Invocation
  | [] => Invocation.ofArguments name letters []
  | arg :: rest =>
    match arg.toList with
    | ['-', '-'] => Invocation.ofArguments name letters rest
    | '-' :: c :: more =>
      match (c :: more).find? fun l => !"aefnuvxIimsVEbpc".toList.contains l with
      | some l => .error s!"Illegal option -{l}"
      | none => Invocation.read name (letters ++ c :: more) rest
    | _ => Invocation.ofArguments name letters (arg :: rest)

end Shell
end Metrology
