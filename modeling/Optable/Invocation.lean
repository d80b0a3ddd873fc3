import Optable.Environment
import Optable.FileTree
/-!
# Invocations of tools

What is seen of a tool that was invoked: what it printed and how it ended.
-/

namespace Optable

inductive Ending where
  | exited (code : Nat)
  /-- A signal ended the tool. -/
  | killed (signal : Nat)
  /-- The tool could not be started. -/
  | notStarted (error : AccessError)
  deriving DecidableEq, Repr

namespace Ending

def succeeded : Ending → Bool
  | .exited 0 => true
  | _ => false

/-- The exit code of a program that ends because a tool did. -/
def exitCode : Ending → Nat
  | .exited code => code
  | .killed _ => 1
  | .notStarted _ => 1

theorem exitCode_eq_zero_iff (e : Ending) : e.exitCode = 0 ↔ e.succeeded := by
  rcases e with ⟨_ | _⟩ | _ | _ <;> simp [exitCode, succeeded]

end Ending

structure Invocation where
  ending : Ending
  stdout : ByteArray
  stderr : ByteArray

/-- What invocations do, given the environment, the tool and its arguments, together with a state
that they hand on to one another. -/
abbrev Invoker (σ : Type u) := Environment → Path → List Text → σ → Invocation × σ

end Optable
