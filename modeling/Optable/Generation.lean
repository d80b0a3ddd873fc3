import Optable.Artifact
import Optable.FileTree.Change
import Optable.Sources
/-!
# Generation

A run loads the sources, merges them, lets the policy judge the collisions that touch what is
generated, and renders it.  Nothing is written before all of that has succeeded.  Warnings are
logged on the way, so that a run which fails later has logged them too.
-/

namespace Optable

/-- What a run is asked for besides the root and the output. -/
structure Options where
  layout : Layout := .standard
  policy : Policy := .warn
  deriving DecidableEq, Repr

/-- What a run came to, with the warnings that it logged until then. -/
structure Logged (α : Type u) where
  result : Except Fault α
  warnings : List Warning

namespace Generated

variable (find : Finder) (tree : FileTree) (options : Options) (root : Path)

/-- Loads and merges the sources and has the collisions of one generated file judged. -/
def assembly (judged : ArtifactKind) : Logged Assembly :=
  match Sources.load find tree options.layout root with
  | .error fault => ⟨.error fault, []⟩
  | .ok set =>
    let assembly := Assembly.ofSources set
    match options.policy.judge judged assembly.collisions with
    | .ok warnings => ⟨.ok assembly, Assembly.warnings set ++ warnings⟩
    | .error collisions => ⟨.error (.collisions collisions), Assembly.warnings set⟩

def builtins (outputDir : Path) : Logged (List Artifact) :=
  let merged := assembly find tree options root .header
  let artifact (assembly : Assembly) (kind : ArtifactKind) : Artifact :=
    ⟨outputDir.join ⟨kind.fileName⟩, Artifact.render assembly kind⟩
  ⟨merged.result.map fun assembly => [artifact assembly .includes, artifact assembly .header],
    merged.warnings⟩

def table (output : Path) : Logged (List Artifact) :=
  let merged := assembly find tree options root .table
  ⟨merged.result.map fun assembly => [⟨output, Artifact.render assembly .table⟩],
    merged.warnings⟩

end Generated

/-- Makes the directories above a path where they are missing. -/
def FileTree.createParents (tree : FileTree) (p : Path) : Except Fault Unit × FileTree :=
  match p.parent?.filter (!·.text.isEmpty) with
  | none => (.ok (), tree)
  | some dir =>
    let (made, tree) := tree.createDirs dir
    (made.mapError (Fault.access dir), tree)

/-- Writes a generated file, making the directories above it.  The tree is given back also where
that fails. -/
def Artifact.write (tree : FileTree) (artifact : Artifact) : Except Fault Unit × FileTree :=
  match tree.createParents artifact.path with
  | (.error fault, tree) => (.error fault, tree)
  | (.ok (), tree) =>
    let (written, tree) := tree.write artifact.path (Text.toBytes artifact.contents)
    (written.mapError (Fault.access artifact.path), tree)

end Optable
