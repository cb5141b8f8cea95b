import Metrology.Text.Blank

/-!
# Paths

Paths are texts whose names are divided by slashes.  They are taken apart by name
only, without a look at the files: empty names and dots count for nothing, except
for a dot at the start of a relative path.
-/

namespace Metrology
namespace Path

/-- The names of a path between its slashes. -/
def segments (path : String) : List String :=
  (Text.pieces (· == '/') path.toList).map String.ofList

/-- Whether a path starts at the root. -/
def isAbsolute (path : String) : Bool := path.toList.head? == some '/'

/-- Whether a segment counts; the dot that starts a relative path does. -/
def counts (segment : String × Nat) : Bool :=
  segment.1 != "" && (segment.1 != "." || segment.2 == 0)

/-- The segments up to the last one that counts, the last one first. -/
def trimmed (reversed : List (String × Nat)) : List (String × Nat) :=
  reversed.dropWhile fun s => !counts s

/-- The path without its last name; a path of no names has none. -/
def parent? (path : String) : Option String :=
  match trimmed (segments path).zipIdx.reverse with
  | [] => none
  | _ :: before =>
    match trimmed before with
    | [] => some (if isAbsolute path then "/" else "")
    | kept => some ("/".intercalate (kept.reverse.map Prod.fst))

/-- A path inside another one, unless it starts at the root. -/
def join (base path : String) : String :=
  if isAbsolute path || base == "" then path
  else if base.toList.getLast? == some '/' then base ++ path
  else base ++ "/" ++ path

/-- A path, its parent and so on, at most `fuel` of them. -/
def ancestorsUpTo : (fuel : Nat) → String → List String
  | 0, _ => []
  | fuel + 1, path =>
    path :: match parent? path with
      | some above => ancestorsUpTo fuel above
      | none => []

/-- A path and all its parents.  A parent has fewer segments, or is the root or empty. -/
def ancestors (path : String) : List String := ancestorsUpTo ((segments path).length + 2) path

end Path
end Metrology
