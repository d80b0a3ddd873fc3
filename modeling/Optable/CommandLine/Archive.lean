import Optable.CommandLine.Program
import Optable.Json.Reader
import Optable.Json.Writer
/-!
# Runs over an archive

An archive is a JSON array with one object for each file, link or directory of a tree.  A program
can be run over the tree of an archive: the answer holds its outcome and the files that it wrote.
The files of an archive are not run as tools.
-/

namespace Optable

mutual

def Node.filesAt (place : List Text) : Node → List (List Text × ByteArray)
  | .file bytes _ => [(place, bytes)]
  | .device _ => []
  | .link _ => []
  | .dir entries => Node.filesIn place entries

def Node.filesIn (place : List Text) : List (Text × Node) → List (List Text × ByteArray)
  | [] => []
  | (name, node) :: rest => node.filesAt (place ++ [name]) ++ Node.filesIn place rest

end

namespace CommandLine

inductive Member where
  | file (text : Text) (executable : Bool)
  | link (target : Path)
  | directory
  deriving DecidableEq, Repr

/-- Reads a member of an archive: its path and its text, its target, or neither. -/
def Member.read? (value : Json.Value) : Option (Path × Member) := do
  let path ← (Json.field? "path" value).bind Json.text?
  let executable := match Json.field? "executable" value with
    | some (.boolean b) => b
    | _ => false
  let textOf := fun key : String => (Json.field? key value).bind Json.text?
  match textOf "text", textOf "target" with
  | some text, _ => return (⟨path⟩, .file text executable)
  | none, some target => return (⟨path⟩, .link ⟨target⟩)
  | none, none => return (⟨path⟩, .directory)

/-- Puts a member into a tree, below directories that are made as needed. -/
def Member.add (tree : FileTree) (path : Path) (member : Member) : FileTree :=
  let tree := (tree.createParents path).2
  match member with
  | .directory => (tree.createDirs path).2
  | .link target => (tree.createLink path target).2
  | .file text executable =>
    let tree := (tree.write path (Text.toBytes text)).2
    if executable then (tree.makeExecutable path).2 else tree

/-- The tree of an archive.  Its root is the current directory. -/
def readArchive? (t : Text) : Option FileTree :=
  match Json.read? t with
  | some (.array values) => do
    let members ← values.mapM Member.read?
    return members.foldl (fun tree (path, member) => member.add tree path)
      ⟨.emptyDir, .place []⟩
  | _ => none

/-- The files of a tree that another tree does not hold with the same bytes. -/
def changedFiles (before after : FileTree) : List (List Text × ByteArray) :=
  (after.root.filesAt []).filter fun (place, bytes) =>
    match before.root.get? place with
    | some (.file old _) => old.data ≠ bytes.data
    | _ => true

def bytesValue (bytes : ByteArray) : Json.Value := .string (Text.ofBytes? bytes)

def answer (outcome : Outcome) (before after : FileTree) : Json.Value :=
  let file := fun (place, bytes) =>
    Json.ofFields [("path", Json.ofText (FileTree.pathOf place).text), ("text", bytesValue bytes)]
  Json.ofFields
    [("exit", Json.ofNat outcome.exit), ("stdout", bytesValue outcome.stdout),
     ("stderr", bytesValue outcome.stderr),
     ("log", .array (outcome.log.map fun warning => Json.ofText warning.message)),
     ("files", .array ((changedFiles before after).map file))]

def runArchive? (program : Program) (env : Environment) (arguments : List Text) (archive : Text) :
    Option (Outcome × Json.Value) := do
  let tree ← readArchive? archive
  let (outcome, after) := program.run (.standard noTools) env tree arguments
  return (outcome, answer outcome tree after)

end CommandLine
end Optable
