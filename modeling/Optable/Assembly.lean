import Optable.Entry
import Optable.Sections
import Optable.Token.Lexer
/-!
# Assembly

The sources of one run, scanned and merged: what to include, what to declare, which rows to write,
and what contradicts itself.  Grouped files declare primitives in their text, individual files by
their name; both hold doc blocks.
-/

namespace Optable

structure SourceFile where
  path : Path
  text : Text
  deriving DecidableEq, Repr

structure SourceSet where
  root : Path
  /-- Files that declare primitives in their text; each is included. -/
  grouped : List SourceFile
  /-- Files that each hold the primitive they are named after. -/
  individual : List SourceFile
  deriving DecidableEq, Repr

inductive SourceKind where
  | grouped
  | individual
  deriving DecidableEq, Repr

namespace SourceFile

def tokens (file : SourceFile) : List Token := Token.ofText file.text

def declarations (file : SourceFile) : SourceKind → List Declaration
  | .grouped => Declaration.ofTokens file.path file.tokens
  | .individual => Declaration.ofFileName file.path

def blocks (file : SourceFile) : List DocBlock := DocBlock.ofTokens file.path file.tokens

end SourceFile

/-- The declarations of all sources, grouped files first. -/
def SourceSet.declarations (set : SourceSet) : List Declaration :=
  set.grouped.flatMap (·.declarations .grouped)
    ++ set.individual.flatMap (·.declarations .individual)

def SourceSet.blocks (set : SourceSet) : List DocBlock :=
  (set.grouped ++ set.individual).flatMap (·.blocks)

structure Assembly where
  /-- The grouped files, as they are named in an include directive. -/
  includes : List Text
  sections : Sections
  /-- The rows by ascending index. -/
  entries : List Entry
  /-- The conflicts between sections, then the shared indices. -/
  collisions : List Collision

namespace Assembly

def ofSources (set : SourceSet) : Assembly :=
  let entries := Entry.order (Entry.ofBlocks set.blocks)
  { includes := set.grouped.map fun file => Path.textFrom set.root file.path
    sections := Sections.ofDeclarations set.declarations
    entries := entries
    collisions := Sections.conflicts set.declarations ++ Entry.collisions entries }

def warnings (set : SourceSet) : List Warning := Entry.warnings set.blocks

end Assembly
end Optable
