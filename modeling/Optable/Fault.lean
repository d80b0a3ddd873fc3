import Optable.Collision
import Optable.FileTree
/-!
# Faults

What ends a run.  Nothing inside a comment is a fault: a comment that does not fit is no doc block.
-/

namespace Optable

inductive Fault where
  /-- The directory of the sources is not there. -/
  | missingSources (dir : Path)
  /-- A path cannot be read or written. -/
  | access (path : Path) (error : AccessError)
  /-- The pattern for the sources of a directory is refused. -/
  | pattern (error : Text)
  | missingDatabase (path : Path)
  | malformedDatabase (path : Path) (error : Text)
  /-- The compile database names no source to lint. -/
  | nothingToLint
  /-- The sources contradict themselves and the policy does not allow it. -/
  | collisions (collisions : List Collision)
  deriving DecidableEq, Repr

namespace Fault

def message : Fault → Text
  | .missingSources dir => "source directory not found: ".toList ++ dir.text
  | .access path error => "failed to access ".toList ++ path.text ++ ": ".toList ++ error.message
  | .pattern error => "invalid glob pattern: ".toList ++ error
  | .missingDatabase path => path.text ++ " not found; run `make joy` first.".toList
  | .malformedDatabase path error =>
    "malformed compile database ".toList ++ path.text ++ ": ".toList ++ error
  | .nothingToLint => "No source files discovered for clang-tidy.".toList
  | .collisions cs =>
    Text.ofNat cs.length ++ " collision(s) in primitive metadata:\n".toList
      ++ Text.unlines (cs.map (·.message))

def cause? : Fault → Option Text
  | .access _ error => some error.message
  | .pattern error => some error
  | .malformedDatabase _ error => some error
  | _ => none

end Fault
end Optable
