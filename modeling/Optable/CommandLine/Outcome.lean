import Optable.Collision
import Optable.Text.Utf8
/-!
# Programs and their outcomes

Each of the three programs takes two paths.  What it leaves besides the files that it wrote is what
it printed, the warnings that it logged and its exit code.
-/

namespace Optable.CommandLine

inductive Program where
  /-- Writes the list of includes and the header. -/
  | builtins
  /-- Writes the table. -/
  | table
  /-- Runs the lint tool over the sources of a compile database. -/
  | lint
  deriving DecidableEq, Repr

structure Arguments where
  first : Path
  second : Path
  policy : Policy
  deriving DecidableEq, Repr

/-- How a program ends.  The lines that the logger makes of the warnings are not among what is
printed. -/
structure Outcome where
  exit : Nat
  log : List Warning
  stdout : ByteArray
  stderr : ByteArray

/-- The outcome of a program that fails after it has printed texts as output and as errors. -/
def Outcome.failed (printed errors report : Text) : Outcome :=
  ⟨1, [], Text.toBytes printed, Text.toBytes (errors ++ report)⟩

end Optable.CommandLine
