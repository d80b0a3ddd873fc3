import Optable.Invocation
/-!
# Running the lint tool

The tool is invoked for one source after the other until an invocation does not succeed.  What an
invocation does is a parameter, together with the state that invocations hand on.
-/

namespace Optable.Lint

structure Step where
  source : Path
  invocation : Invocation

/-- Invokes the tool for the sources in turn, up to the first invocation that does not succeed. -/
def run (invoke : σ → Path → Invocation × σ) (state : σ) : List Path → List Step × σ
  | [] => ([], state)
  | source :: rest =>
    let (invocation, state) := invoke state source
    if invocation.ending.succeeded then
      let (steps, state) := run invoke state rest
      (⟨source, invocation⟩ :: steps, state)
    else ([⟨source, invocation⟩], state)

def ending (steps : List Step) : Ending :=
  (steps.getLast?.map (·.invocation.ending)).getD (.exited 0)

def announcement (source : Path) : Text := "Running clang-tidy on ".toList ++ source.text ++ ['\n']

/-- What a run prints: each source is announced before the tool prints what it has to say. -/
def stdout (steps : List Step) : ByteArray :=
  steps.foldl (fun out step => out ++ Text.toBytes (announcement step.source)
    ++ step.invocation.stdout) ByteArray.empty

def stderr (steps : List Step) : ByteArray :=
  steps.foldl (fun out step => out ++ step.invocation.stderr) ByteArray.empty

end Optable.Lint
