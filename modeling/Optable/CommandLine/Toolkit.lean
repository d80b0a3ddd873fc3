import Optable.CommandLine.Arguments
import Optable.CompileDatabase
import Optable.Finder
import Optable.Invocation
/-!
# Toolkits

What the programs leave to others: the reading of their arguments and of the compile database, the
search for paths, and the tools that they run.
-/

namespace Optable.CommandLine

structure Toolkit where
  /-- Reads the arguments of a program, or ends it: because of an error, or with the help that was
  asked for. -/
  readArguments : Program → List Text → Except Outcome Arguments
  find : Finder
  readDatabase : CompileDatabase.Reader
  invoke : Invoker FileTree

def noTools : Invoker FileTree := fun _ _ _ tree =>
  (⟨.notStarted (.os .notFound), .empty, .empty⟩, tree)

/-- What this library has for all of it but the tools. -/
def Toolkit.standard (invoke : Invoker FileTree) : Toolkit :=
  ⟨CommandLine.readArguments, Pattern.find, CompileDatabase.read, invoke⟩

end Optable.CommandLine
