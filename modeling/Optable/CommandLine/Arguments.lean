import Optable.CommandLine.Outcome
/-!
# Command line arguments

The arguments are read from left to right.  The generators take an option, which may stand anywhere
and at most once, and every program can be asked for help.  After two dashes nothing is an option
any more, and a single dash is a path.
-/

namespace Optable.CommandLine

def denyOption : Text := "--deny-collisions".toList

def helpOptions : List Text := ["-h".toList, "--help".toList]

def Program.hasOption : Program → Bool
  | .lint => false
  | _ => true

def Program.usage : Program → Text
  | .builtins => "Usage: builtins [--deny-collisions] ROOT DIRECTORY\n".toList
  | .table => "Usage: table [--deny-collisions] ROOT FILE\n".toList
  | .lint => "Usage: lint BUILD TOOL\n".toList

/-- The exit code for arguments that cannot be read. -/
def usageExit : Nat := 2

def Outcome.misuse (program : Program) : Outcome :=
  ⟨usageExit, [], .empty, Text.toBytes program.usage⟩

def Outcome.help (program : Program) : Outcome := ⟨0, [], Text.toBytes program.usage, .empty⟩

/-- The paths among the arguments, and whether the option is given, both with what was read
before. -/
def separate (program : Program) (paths : List Text) (given : Bool) :
    List Text → Except Outcome (List Text × Bool)
  | [] => .ok (paths, given)
  | ['-', '-'] :: rest => .ok (paths ++ rest, given)
  | ['-'] :: rest => separate program (paths ++ [['-']]) given rest
  | ('-' :: option) :: rest =>
    if '-' :: option ∈ helpOptions then .error (.help program)
    else if program.hasOption && '-' :: option = denyOption && !given then
      separate program paths true rest
    else .error (.misuse program)
  | path :: rest => separate program (paths ++ [path]) given rest

/-- Reads the arguments of a program: two paths that are not empty, and the option once at most. -/
def readArguments (program : Program) (arguments : List Text) : Except Outcome Arguments :=
  match separate program [] false arguments with
  | .error outcome => .error outcome
  | .ok ([first, second], given) =>
    if first.isEmpty || second.isEmpty then .error (.misuse program)
    else .ok ⟨⟨first⟩, ⟨second⟩, if given then .deny else .warn⟩
  | .ok _ => .error (.misuse program)

end Optable.CommandLine
