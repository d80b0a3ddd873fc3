import Optable.Path
import Optable.Text.Decimal
/-!
# Collisions and warnings

Two kinds of input contradict themselves: several rows may share an index, and a symbol may be
declared both natively and not.  Each touches one of the generated files.  The policy decides
whether a collision is only reported or stops the run.
-/

namespace Optable

inductive ArtifactKind where
  | includes
  | header
  | table
  deriving DecidableEq, Repr

def ArtifactKind.fileName : ArtifactKind → Text
  | .includes => "builtin.c".toList
  | .header => "builtin.h".toList
  | .table => "table.c".toList

/-- Something the sources say twice in ways that do not agree. -/
inductive Collision where
  /-- Several rows have one index; their names are in the order of the rows. -/
  | sharedIndex (index : Int) (names : List Text)
  /-- A symbol is declared natively and unconditionally. -/
  | nativeConflict (symbol : Text)
  deriving DecidableEq, Repr

namespace Collision

/-- The generated file that the collision changes. -/
def affects : Collision → ArtifactKind
  | .sharedIndex .. => .table
  | .nativeConflict _ => .header

def message : Collision → Text
  | .sharedIndex index names =>
    "index ".toList ++ Text.ofInt index ++ " used by ".toList ++ List.intercalate ", ".toList names
  | .nativeConflict symbol => symbol ++ " declared both native-only and unconditionally".toList

end Collision

/-- What is reported without stopping the run. -/
inductive Warning where
  /-- A doc block is left out because its index has more than 64 bits. -/
  | indexOutOfRange (origin : Path) (index name : Text)
  | collision (collision : Collision)
  deriving DecidableEq, Repr

/-- The words of a warning.  Where it names a doc block, the block's fields stand beside them. -/
def Warning.message : Warning → Text
  | .indexOutOfRange .. => "skipping doc block with out-of-range index".toList
  | .collision c => c.message

inductive Policy where
  /-- Report them and go on. -/
  | warn
  /-- Stop before anything is written. -/
  | deny
  deriving DecidableEq, Repr

/-- Applies a policy to those collisions that change a file of the given kind.  Either they are the
reason to stop, or they are reported. -/
def Policy.judge (policy : Policy) (kind : ArtifactKind) (collisions : List Collision) :
    Except (List Collision) (List Warning) :=
  let relevant := collisions.filter (·.affects = kind)
  match policy with
  | .warn => .ok (relevant.map .collision)
  | .deny => if relevant.isEmpty then .ok [] else .error relevant

end Optable
