import Optable.Path
import Optable.Text.Decimal
import Optable.Text.Utf8
/-!
# File trees

A file tree is what programs read and write: directories, files, devices and symbolic links below
one root, and a current directory, which may have been taken away.  A place in the tree is the list
of names that leads to it from the root.  What may go wrong with a path is an `AccessError`.
-/

namespace Optable

/-- Files that hold nothing, but do something with what is written to them. -/
inductive Device where
  /-- Takes everything and gives nothing. -/
  | null
  /-- Takes nothing, for it has no space. -/
  | full
  /-- Stands for a channel of the program that uses it. -/
  | channel (number : Nat)
  deriving DecidableEq, Repr

inductive Node where
  | file (bytes : ByteArray) (executable : Bool)
  | device (device : Device)
  | link (target : Path)
  | dir (entries : List (Text × Node))
  deriving Inhabited

namespace Node

def emptyDir : Node := .dir []

/-- The node that a list of names leads to, links not followed. -/
def get? : Node → List Text → Option Node
  | node, [] => some node
  | .dir entries, name :: rest => (entries.lookup name).bind fun child => get? child rest
  | _, _ :: _ => none

/-- Entries with one of them set, in its old position or else at the end. -/
def setEntry (name : Text) (node : Node) : List (Text × Node) → List (Text × Node)
  | [] => [(name, node)]
  | (n, old) :: rest => if n = name then (n, node) :: rest else (n, old) :: setEntry name node rest

/-- The tree with a node put at the place that a list of names leads to.  The directory above that
place has to be there; otherwise nothing changes. -/
def put (new : Node) : Node → List Text → Node
  | _, [] => new
  | .dir entries, [name] => .dir (setEntry name new entries)
  | .dir entries, name :: rest =>
    match entries.lookup name with
    | some child => .dir (setEntry name (put new child rest) entries)
    | none => .dir entries
  | node, _ :: _ => node

def isDir : Node → Bool
  | .dir _ => true
  | _ => false

/-- Whether the node is a file and no device. -/
def isFile : Node → Bool
  | .file .. => true
  | _ => false

end Node

inductive CurrentDirectory where
  /-- A place of the tree. -/
  | place (names : List Text)
  /-- A directory that was taken away: it is empty, nothing can be put into it, and only the
  directory above it can still be reached from it. -/
  | removed (parent : List Text)
  deriving DecidableEq, Repr, Inhabited

structure FileTree where
  root : Node
  current : CurrentDirectory
  deriving Inhabited

inductive OsError where
  | notFound
  | execFormat
  | permissionDenied
  | alreadyExists
  | notDirectory
  | isDirectory
  | noSpace
  | nameTooLong
  | tooManyLinks
  deriving DecidableEq, Repr

namespace OsError

def number : OsError → Nat
  | .notFound => 2
  | .execFormat => 8
  | .permissionDenied => 13
  | .alreadyExists => 17
  | .notDirectory => 20
  | .isDirectory => 21
  | .noSpace => 28
  | .nameTooLong => 36
  | .tooManyLinks => 40

def description : OsError → String
  | .notFound => "No such file or directory"
  | .execFormat => "Exec format error"
  | .permissionDenied => "Permission denied"
  | .alreadyExists => "File exists"
  | .notDirectory => "Not a directory"
  | .isDirectory => "Is a directory"
  | .noSpace => "No space left on device"
  | .nameTooLong => "File name too long"
  | .tooManyLinks => "Too many levels of symbolic links"

end OsError

inductive AccessError where
  | os (error : OsError)
  /-- The file is not UTF-8. -/
  | invalidText
  /-- The path holds the character NUL. -/
  | nulInPath
  /-- An argument or a variable for a tool holds the character NUL. -/
  | nulInArgument
  deriving DecidableEq, Repr

def AccessError.message : AccessError → Text
  | .os e => e.description.toList ++ " (os error ".toList ++ Text.ofNat e.number ++ ")".toList
  | .invalidText => "stream did not contain valid UTF-8".toList
  | .nulInPath => "file name contained an unexpected NUL byte".toList
  | .nulInArgument => "nul byte found in provided data".toList

end Optable
