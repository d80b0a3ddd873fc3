import Optable.FileTree.Resolve
/-!
# Changes of a file tree

Each change answers whether it was made, together with the tree after it; what was done before an
error stays done.
-/

namespace Optable.FileTree

abbrev Changed := Except AccessError Unit × FileTree

def withoutEndSlashes (p : Path) : Path :=
  ⟨(p.text.reverse.dropWhile (· = '/')).reverse⟩

def put (tree : FileTree) (names : List Text) (node : Node) : FileTree :=
  { tree with root := Node.put node tree.root names }

/-- Makes a directory at a free name.  A link in its place is not followed. -/
def createDir (tree : FileTree) (p : Path) : Changed :=
  let stripped := withoutEndSlashes p
  match tree.resolve .entry (if stripped.text.isEmpty then p else stripped) with
  | .ok (.free names) => (.ok (), tree.put names .emptyDir)
  | .ok _ => (.error (.os .alreadyExists), tree)
  | .error e => (.error e, tree)

def ensureDir (tree : FileTree) (p : Path) : Changed :=
  match tree.createDir p with
  | (.ok (), tree) => (.ok (), tree)
  | (.error e, tree) => (if tree.isDir p then .ok () else .error e, tree)

/-- Makes a directory and, where they are missing, those above it. -/
def createDirs (tree : FileTree) (p : Path) : Changed :=
  if p.components.isEmpty then (.ok (), tree)
  else match tree.createDir p with
    | (.error (.os .notFound), tree) =>
      match _h : p.parent? with
      | none => (.error (.os .notFound), tree)
      | some parent =>
        match tree.createDirs parent with
        | (.ok (), tree) => tree.ensureDir p
        | (.error e, tree) => (.error e, tree)
    | (.ok (), tree) => (.ok (), tree)
    | (.error e, tree) => (if tree.isDir p then .ok () else .error e, tree)
termination_by p.text.length
decreasing_by exact Path.length_parent?_lt ‹_›

/-- Writes a file, in place of what it held.  A new file is not executable; a link is followed, to
a free name too.  What is written to a device does not stay. -/
def write (tree : FileTree) (p : Path) (bytes : ByteArray) : Changed :=
  match tree.resolve .file p with
  | .ok (.found names (.file _ executable)) => (.ok (), tree.put names (.file bytes executable))
  | .ok (.free names) => (.ok (), tree.put names (.file bytes false))
  | .ok (.found _ (.device d)) =>
    (if d = .full ∧ bytes.size ≠ 0 then .error (.os .noSpace) else .ok (), tree)
  | .ok _ => (.error (.os .isDirectory), tree)
  | .error e => (.error e, tree)

def makeExecutable (tree : FileTree) (p : Path) : Changed :=
  match tree.resolve .target p with
  | .ok (.found names (.file bytes _)) => (.ok (), tree.put names (.file bytes true))
  | .ok (.free _) => (.error (.os .notFound), tree)
  | .ok _ => (.ok (), tree)
  | .error e => (.error e, tree)

def createLink (tree : FileTree) (p target : Path) : Changed :=
  match tree.resolve .entry p with
  | .ok (.free names) => (.ok (), tree.put names (.link target))
  | .ok _ => (.error (.os .alreadyExists), tree)
  | .error e => (.error e, tree)

end Optable.FileTree
