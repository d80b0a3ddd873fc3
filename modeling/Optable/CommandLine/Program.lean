import Optable.CommandLine.Report
import Optable.CommandLine.Toolkit
import Optable.Generation
import Optable.Lint.Run
import Optable.Lint.Selection
/-!
# The programs

One program writes the list of includes and the header, one writes the table, and one runs the lint
tool over the sources of a compile database.  A program is a function of its arguments, its
environment and the file tree, given a toolkit; what it leaves is its outcome and the tree.
-/

namespace Optable.CommandLine

/-- What is printed, as output and as errors, by writing an artifact: its contents, if its path is
that of a channel once the directories above it are made. -/
def printedBy (tree : FileTree) (artifact : Artifact) : Text × Text :=
  match (tree.createParents artifact.path).2.device? artifact.path with
  | some (.channel 1) => (artifact.contents, [])
  | some (.channel 2) => ([], artifact.contents)
  | _ => ([], [])

/-- Writes artifacts one after the other, and prints a line for each.  The first one that cannot
be written ends it. -/
def writeArtifacts (tree : FileTree) (printed errors : Text) :
    List Artifact → Outcome × FileTree
  | [] => (⟨0, [], Text.toBytes printed, Text.toBytes errors⟩, tree)
  | artifact :: rest =>
    let (out, err) := printedBy tree artifact
    match artifact.write tree with
    | (.error fault, tree) =>
      (.failed printed errors
        (reportFailure ("failed to write ".toList ++ artifact.path.text) fault), tree)
    | (.ok (), tree) =>
      let line := "Wrote ".toList ++ artifact.path.text ++ ['\n']
      writeArtifacts tree (printed ++ out ++ line) (errors ++ err) rest

def writeGenerated (tree : FileTree) (what : String) (root : Path)
    (generated : Logged (List Artifact)) : Outcome × FileTree :=
  let (outcome, tree) := match generated.result with
    | .ok artifacts => writeArtifacts tree [] [] artifacts
    | .error fault =>
      let activity := "failed to generate ".toList ++ what.toList ++ " from ".toList ++ root.text
      (.failed [] [] (reportFailure activity fault), tree)
  ({ outcome with log := generated.warnings }, tree)

/-- The variable that tells the lint tool where the system's headers are. -/
def sdkVariable : String := "SDKROOT"

/-- Where the system's headers are, as a tool tells.  Any failure leaves it open. -/
def askSdkRoot (invoke : Invoker σ) (env : Environment) (state : σ) : Option Text × σ :=
  let (invocation, state) :=
    invoke env (Path.ofString "xcrun") ["--show-sdk-path".toList] state
  let answer := do
    let text ← if invocation.ending.succeeded then Text.ofBytes? invocation.stdout else none
    if (Text.trim text).isEmpty then none else some (Text.trim text)
  (answer, state)

def lintEnvironment (invoke : Invoker σ) (env : Environment) (state : σ) : Environment × σ :=
  if (env.get? sdkVariable).isSome then (env, state)
  else match askSdkRoot invoke env state with
    | (some sdk, state) => (env.set sdkVariable sdk, state)
    | (none, state) => (env, state)

def lintArguments (buildDir source : Path) : List Text :=
  ["-p".toList, buildDir.text, "--header-filter=src/.*".toList, source.text]

def lintOutcome (tool : Path) (steps : List Lint.Step) : Outcome where
  exit := (Lint.ending steps).exitCode
  log := []
  stdout := Lint.stdout steps
  stderr := match Lint.ending steps with
    | .notStarted e => Lint.stderr steps ++ Text.toBytes (reportFault (.access tool e))
    | _ => Lint.stderr steps

def lintOver (tool : Path) (invoke : σ → Path → Invocation × σ) (state : σ) :
    Except Fault (List Path) → Outcome × σ
  | .error fault => (.failed [] [] (reportFault fault), state)
  | .ok sources =>
    let (steps, state) := Lint.run invoke state sources
    (lintOutcome tool steps, state)

/-- Runs the lint tool over the sources that a tree holds for a build directory.  The system's
headers are asked for only if there is something to lint.  What invocations do is a parameter. -/
def lintWith (read : CompileDatabase.Reader) (invoke : Invoker σ) (env : Environment)
    (tree : FileTree) (state : σ) (buildDir tool : Path) : Outcome × σ :=
  let buildDir := (Lint.PathSense.ofTree tree).normalize buildDir
  let sources := Lint.sources read tree buildDir
  let (env, state) := if sources.isOk then lintEnvironment invoke env state else (env, state)
  let lintOne (state : σ) (source : Path) := invoke env tool (lintArguments buildDir source) state
  lintOver tool lintOne state sources

def Program.run (kit : Toolkit) (program : Program) (env : Environment) (tree : FileTree)
    (arguments : List Text) : Outcome × FileTree :=
  match kit.readArguments program arguments with
  | .error outcome => (outcome, tree)
  | .ok a =>
    match program with
    | .builtins =>
      writeGenerated tree "builtins" a.first
        (Generated.builtins kit.find tree { policy := a.policy } a.first a.second)
    | .table =>
      writeGenerated tree "table" a.first
        (Generated.table kit.find tree { policy := a.policy } a.first a.second)
    | .lint => lintWith kit.readDatabase kit.invoke env tree tree a.first a.second

end Optable.CommandLine
