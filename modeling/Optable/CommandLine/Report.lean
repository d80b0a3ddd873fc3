import Optable.Fault
/-!
# Error reports

A program that fails prints what failed and then what lies behind it, cause by cause.  Causes are
indented, and numbered where there is more than one.
-/

namespace Optable.CommandLine

/-- A text whose first line follows a lead and whose other lines are indented. -/
def indented (lead indent : Text) (t : Text) : Text :=
  lead ++ List.intercalate ('\n' :: indent) (Text.lines t)

def numberLead (n : Nat) : Text := List.leftpad 5 ' ' (Text.ofNat n) ++ ": ".toList

def causeLines : List Text → List Text
  | [cause] => [indented (List.replicate 4 ' ') (List.replicate 4 ' ') cause]
  | causes => causes.mapIdx fun n cause => indented (numberLead n) (List.replicate 7 ' ') cause

def report (failed : Text) (causes : List Text) : Text :=
  let head := "Error: ".toList ++ failed
  if causes.isEmpty then head ++ ['\n']
  else head ++ "\n\nCaused by:\n".toList ++ Text.unlines (causeLines causes) ++ ['\n']

def reportFault (fault : Fault) : Text := report fault.message fault.cause?.toList

def reportFailure (activity : Text) (fault : Fault) : Text :=
  report activity (fault.message :: fault.cause?.toList)

end Optable.CommandLine
