import Optable.CompileDatabase
import Optable.Fault
import Optable.FileTree.Resolve
/-!
# Which sources to lint

Linted are the compiled files that lie under the directory `src` beside the build directory, in the
order of the compile database and each once.  Paths are compared after they have been normalized:
made canonical where they lead to something, and absolute wherever there is a current directory.
How a database is read is a parameter.
-/

namespace Optable.Lint

/-- What paths mean: the canonical form of those that lead to something, and the directory that
relative ones are seen from, unless it was taken away. -/
structure PathSense where
  canonical? : Path → Option Path
  current? : Option Path

def PathSense.ofTree (tree : FileTree) : PathSense where
  canonical? p := (tree.canonical p).toOption
  current? := tree.currentPath?

namespace PathSense

def absolute (sense : PathSense) (p : Path) : Path :=
  match sense.current? with
  | some current => current.join p
  | none => p

/-- The canonical form of a path that leads to something, and the absolute form of any other. -/
def normalize (sense : PathSense) (p : Path) : Path :=
  match sense.canonical? p with
  | some q => q
  | none => sense.absolute p

/-- The directory of the sources that go with a build directory: `src` in its parent, or in itself
where it has no parent. -/
def sourceRoot (sense : PathSense) (buildDir : Path) : Path :=
  sense.normalize ((buildDir.parent?.getD buildDir).join (Path.ofString "src"))

/-- The path of a compiled file.  A relative one is seen from its directory, if that is given. -/
def compiledPath (sense : PathSense) (c : CompiledFile) : Path :=
  match c.directory with
  | some dir => sense.normalize (dir.join c.file)
  | none => sense.normalize c.file

end PathSense

/-- The paths of a list that are not the same as an earlier one or one of those seen before. -/
def distinct (seen : List Path) : List Path → List Path
  | [] => []
  | p :: rest =>
    if seen.any p.sameAs then distinct seen rest else p :: distinct (p :: seen) rest

def select (sense : PathSense) (buildDir : Path) (files : List CompiledFile) : List Path :=
  distinct [] ((files.map sense.compiledPath).filter fun p =>
    p.isWithin (sense.sourceRoot buildDir))

def readDatabase (read : CompileDatabase.Reader) (tree : FileTree) (buildDir : Path) :
    Except Fault (List CompiledFile) :=
  let path := buildDir.join CompileDatabase.fileName
  match tree.readText path with
  | .error (.os .notFound) => .error (.missingDatabase path)
  | .error e => .error (.access path e)
  | .ok text =>
    match read text with
    | .ok files => .ok files
    | .error e => .error (.malformedDatabase path e)

/-- The sources to lint among the compiled files; there has to be one. -/
def sourcesAmong (sense : PathSense) (buildDir : Path) (files : List CompiledFile) :
    Except Fault (List Path) :=
  match select sense buildDir files with
  | [] => .error .nothingToLint
  | paths => .ok paths

def sources (read : CompileDatabase.Reader) (tree : FileTree) (buildDir : Path) :
    Except Fault (List Path) := do
  sourcesAmong (.ofTree tree) buildDir (← readDatabase read tree buildDir)

end Optable.Lint
