import Optable.Text.Blank
/-!
# Environments

What a program is told besides its arguments: variables with their values.
-/

namespace Optable

structure Environment where
  bindings : List (Text × Text)
  deriving Inhabited

namespace Environment

def get? (env : Environment) (name : String) : Option Text := env.bindings.lookup name.toList

def set (env : Environment) (name : String) (value : Text) : Environment :=
  ⟨(name.toList, value) :: env.bindings.filter (·.1 ≠ name.toList)⟩

end Environment
end Optable
