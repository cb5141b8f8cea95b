import Metrology.Host

/-!
# Programs of a host in memory

The programs that a host in memory can run, by the names they are called by.

This is a part of the host in memory, which stands in for an operating system.
No theorem about sessions rests on it.
-/

namespace Metrology

/-- A program. -/
inductive Program where
  | shell
  /-- Copies files one after the other. -/
  | concatenate
  /-- Copies the first lines. -/
  | firstLines
  /-- Copies the last lines. -/
  | lastLines
  /-- Counts lines, words and bytes. -/
  | count
  /-- Replaces or drops bytes. -/
  | replace
  /-- Puts lines in order. -/
  | order
  /-- Leaves out lines that repeat the one before. -/
  | distinct
  /-- Writes the numbers of a range. -/
  | range
  /-- Copies to files as well. -/
  | branch
  /-- Writes its arguments. -/
  | write
  | succeed
  | fail
  /-- Waits, which takes no time here. -/
  | wait
deriving DecidableEq

namespace Program

/-- The programs by name. -/
def all : List (String × Program) :=
  [("sh", shell), ("cat", concatenate), ("head", firstLines), ("tail", lastLines), ("wc", count),
    ("tr", replace), ("sort", order), ("uniq", distinct), ("seq", range), ("tee", branch),
    ("echo", write), ("true", succeed), ("false", fail), ("sleep", wait)]

end Program
end Metrology
