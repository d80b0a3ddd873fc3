import Optable.CommandLine.Archive
/-!
# The command line

`optable builtins ROOT DIRECTORY`, `optable table ROOT FILE` and `optable lint BUILD TOOL` run the
three programs over the archive of a file tree, which is read from standard input.  The answer on
standard output holds what the program prints, its exit code and the files that it wrote.
-/

namespace Optable.Main

def program? : String → Option CommandLine.Program
  | "builtins" => some .builtins
  | "table" => some .table
  | "lint" => some .lint
  | _ => none

def usage : String :=
  "usage: optable (builtins | table | lint) [--deny-collisions] PATH PATH < ARCHIVE"

partial def readAll (input : IO.FS.Stream) (read : String) : IO String := do
  let line ← input.getLine
  if line.isEmpty then return read else readAll input (read ++ line)

end Optable.Main

/-- Runs the program that the first argument names with the arguments after it. -/
def main (arguments : List String) : IO UInt32 := do
  let misuse : IO UInt32 := do
    IO.eprintln Optable.Main.usage
    return UInt32.ofNat Optable.CommandLine.usageExit
  let some program := arguments.head?.bind Optable.Main.program? | misuse
  let env : Optable.Environment :=
    match ← IO.getEnv Optable.CommandLine.sdkVariable with
    | some sdk => Optable.Environment.set ⟨[]⟩ Optable.CommandLine.sdkVariable sdk.toList
    | none => ⟨[]⟩
  let archive ← Optable.Main.readAll (← IO.getStdin) ""
  let paths := arguments.tail.map String.toList
  match Optable.CommandLine.runArchive? program env paths archive.toList with
  | none => misuse
  | some (outcome, answer) =>
    IO.println (String.ofList (Optable.Json.write answer))
    return UInt32.ofNat outcome.exit
