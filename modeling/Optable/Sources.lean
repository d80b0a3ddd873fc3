import Optable.Assembly
import Optable.Fault
import Optable.Finder
/-!
# Finding the sources

The grouped sources are the C files directly inside one directory under the root, the individual
ones those inside a directory below it, which may be missing.  The root is made canonical first, so
that its spelling does not matter.  What a pattern finds is left to a finder.
-/

namespace Optable

structure Layout where
  /-- The directory of the grouped files, seen from the root. -/
  builtinDir : Path
  /-- The directory of the individual files, seen from that of the grouped ones. -/
  individualDir : Path
  deriving DecidableEq, Repr

def Layout.standard : Layout where
  builtinDir := Path.ofString "src/builtin"
  individualDir := Path.ofString "individual"

namespace Sources

def extension : Text := ".c".toList

def list (find : Finder) (tree : FileTree) (dir : Path) : Except Fault (List Path) := do
  let found ← (find tree (Pattern.inside dir extension)).mapError .pattern
  let files := (found.filterMap Except.toOption).filter tree.isFile
  return files.mergeSort fun p q => !Path.precedes q p

def readFile (tree : FileTree) (p : Path) : Except Fault SourceFile :=
  match tree.readText p with
  | .ok text => .ok ⟨p, text⟩
  | .error e => .error (.access p e)

/-- Reads all sources under a root.  The first file that cannot be read ends it. -/
def load (find : Finder) (tree : FileTree) (layout : Layout) (root : Path) :
    Except Fault SourceSet := do
  unless tree.isDir (root.join layout.builtinDir) do
    throw (.missingSources (root.join layout.builtinDir))
  let root ← (tree.canonical root).mapError (.access root)
  let builtinDir := root.join layout.builtinDir
  let grouped ← (← list find tree builtinDir).mapM (readFile tree)
  let individualDir := builtinDir.join layout.individualDir
  let individual ←
    if tree.isDir individualDir then (← list find tree individualDir).mapM (readFile tree)
    else pure []
  return ⟨root, grouped, individual⟩

end Sources
end Optable
