import Optable.FileTree.Resolve
import Optable.Pattern
import Optable.Text.Order
/-!
# Finding paths

A finder answers a pattern with the paths of a tree that it stands for.  The search of this module
goes down segment by segment.  A segment without special characters is looked up, and any other one
is compared with the names in the directory that was reached.
-/

namespace Optable

/-- What a pattern finds in a tree, or what is wrong with the pattern.  Where a directory cannot be
read, that takes the place of a path. -/
abbrev Finder := FileTree → Text → Except Text (List (Except AccessError Path))

namespace Pattern

/-- One more segment after a path.  The path of the current directory is not spelled out in front of
a segment. -/
def extend (p : Path) (segment : Text) : Path :=
  if p.components = [.here] then ⟨segment⟩ else p.join ⟨segment⟩

/-- Whether a segment leads on from a path.  A dot or a pair of dots has to start in a directory. -/
def leadsOn (tree : FileTree) (p : Path) (segment : Text) : Bool :=
  if segment = ['.'] ∨ segment = ['.', '.'] then tree.isDir p else tree.occupied (extend p segment)

def below (tree : FileTree) (p : Path) (segment : Text) : List Path :=
  if segment.any isSpecial then
    let names := (tree.names p).filter (standsFor segment)
    (names.mergeSort fun a b => !Text.precedes b a).map (extend p)
  else if leadsOn tree p segment then [extend p segment]
  else []

def search (tree : FileTree) (p : Path) : List Text → List Path
  | [] => [p]
  | segment :: rest => (below tree p segment).flatMap fun q => search tree q rest

def route : Text → Path × List Text
  | '/' :: rest => (⟨['/']⟩, rest.splitOn '/')
  | pattern => (⟨['.']⟩, pattern.splitOn '/')

/-- Finds the paths that a pattern stands for. -/
def find : Finder := fun tree pattern =>
  let (start, segments) := route pattern
  if segments.all fun segment => (read? segment).isSome then
    .ok ((search tree start segments).map .ok)
  else .error "a bracket is not closed, or two stars meet".toList

end Pattern
end Optable
