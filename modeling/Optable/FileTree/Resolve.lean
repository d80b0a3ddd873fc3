import Optable.FileTree
/-!
# Where a path leads

A path is followed segment by segment from the root or the current directory.  Empty segments and
single dots stay where they are, a pair of dots goes up (the root is its own parent), and a
symbolic link is replaced by its target.  All segments but the last have to lead to directories,
and so has the last where a slash follows it.
-/

namespace Optable.FileTree

inductive Place where
  /-- To a node that is there. -/
  | found (names : List Text) (node : Node)
  /-- To a name that is free in a directory that is there. -/
  | free (names : List Text)
  /-- To the current directory, which was taken away. -/
  | removed
  deriving Inhabited

/-- What a path is followed for. -/
inductive Aim where
  /-- For what stands at its end, which may be a link. -/
  | entry
  /-- For what it leads to through all links. -/
  | target
  /-- For a file to be written, through all links.  A name with a slash after it can only be a
  directory's, which holds for the last name of a link's target too. -/
  | file
  /-- For the path from the root to what it leads to.  That path is spelled out on the way, and is
  limited in length at every step. -/
  | spelling
  deriving DecidableEq, Repr

/-- How many links one path may lead through. -/
def linkLimit : Nat := 40

/-- How many bytes a name may have. -/
def nameLimit : Nat := 255

/-- How many bytes a path may have. -/
def pathLimit : Nat := 4095

/-- Whether segments are nothing but the slash at the end of a path. -/
def isEndSlash (segments : List Text) : Bool := !segments.isEmpty && segments.all (·.isEmpty)

/-- Whether what is before segments has to be looked at as a directory, as none of the names after
it will tell. -/
def needsDirectory : List Text → Bool
  | [] => false
  | [[]] => true
  | [] :: rest => needsDirectory rest
  | [['.']] => true
  | ['.'] :: rest => needsDirectory rest
  | ['.', '.'] :: _ => true
  | _ => false

def pathOf (names : List Text) : Path := ⟨'/' :: List.intercalate ['/'] names⟩

/-- Whether the path to a place, with so many slashes after it, is longer than paths may be. -/
def exceeds (place : List Text) (slashes : Nat) : Bool :=
  Text.byteSize (pathOf place).text + slashes > pathLimit

/-- Follows a segment from a place of the tree, and the rest of the segments after it: `onward` from
the place where it leads, or `behind` where it is a link to be followed, with the segments of its
target before the rest. -/
def walkSegment (root : Node) (aim : Aim) (onward : List Text → Except OsError Place)
    (behind : List Text → List Text → Except OsError Place) (place : List Text) (segment : Text)
    (rest : List Text) : Except OsError Place :=
  match root.get? place with
  | some (.dir entries) =>
    match Path.Component.ofSegment? segment with
    | none => onward place
    | some .up => onward place.dropLast
    | some _ =>
      if aim = .file && isEndSlash rest then .error .isDirectory
      else if Text.byteSize segment > nameLimit then .error .nameTooLong
      else if aim = .spelling && exceeds (place ++ [segment]) 0 then .error .nameTooLong
      else match entries.lookup segment with
        | none =>
          if rest.all (·.isEmpty) then .ok (.free (place ++ [segment])) else .error .notFound
        | some (.link target) =>
          if rest.isEmpty && aim = .entry then .ok (.found (place ++ [segment]) (.link target))
          else behind (if target.isAbsolute then [] else place) (target.text.splitOn '/' ++ rest)
        | some _ =>
          if aim = .spelling && needsDirectory rest && exceeds (place ++ [segment]) 1 then
            .error .nameTooLong
          else onward (place ++ [segment])
  | some _ => .error .notDirectory
  | none => .error .notFound

def walkBy (root : Node) (aim : Aim) (behind : List Text → List Text → Except OsError Place)
    (place : List Text) : List Text → Except OsError Place
  | [] =>
    match root.get? place with
    | some node => .ok (.found place node)
    | none => .error .notFound
  | segment :: rest =>
    walkSegment root aim (fun place => walkBy root aim behind place rest) behind place segment rest

/-- Follows segments behind a link, when so many may be followed with this one. -/
def walkBehind (root : Node) (aim : Aim) : Nat → List Text → List Text → Except OsError Place
  | 0 => fun _ _ => .error .tooManyLinks
  | links + 1 => walkBy root aim (walkBehind root aim links)

/-- Follows segments from a place of the tree; `links` is the number of links that may still be
followed. -/
def walk (root : Node) (aim : Aim) (links : Nat) (place segments : List Text) :
    Except OsError Place :=
  walkBy root aim (walkBehind root aim links) place segments

theorem walk_nil (root : Node) (aim : Aim) (links : Nat) (place : List Text) :
    walk root aim links place [] =
      match root.get? place with
      | some node => .ok (.found place node)
      | none => .error .notFound := rfl

theorem walk_cons (root : Node) (aim : Aim) (links : Nat) (place : List Text) (segment : Text)
    (rest : List Text) :
    walk root aim links place (segment :: rest) =
      walkSegment root aim (walk root aim links · rest) (walkBehind root aim links) place segment
        rest := rfl

theorem walkBehind_succ (root : Node) (aim : Aim) (links : Nat) :
    walkBehind root aim (links + 1) = walk root aim links := rfl

/-- Follows segments from the current directory after it was taken away.  It holds no names, and a
pair of dots goes to the directory that it was in. -/
def walkRemoved (root : Node) (aim : Aim) (parent : List Text) :
    List Text → Except OsError Place
  | [] => .ok .removed
  | segment :: rest =>
    match Path.Component.ofSegment? segment with
    | none => walkRemoved root aim parent rest
    | some .up => walk root aim linkLimit parent rest
    | some _ => .error (if aim = .file && isEndSlash rest then .isDirectory else .notFound)

/-- Follows a path of any length. -/
def follow (tree : FileTree) (aim : Aim) (p : Path) : Except OsError Place :=
  if p.text.isEmpty then .error .notFound
  else
    let segments := p.text.splitOn '/'
    if p.isAbsolute then walk tree.root aim linkLimit [] segments
    else match tree.current with
      | .place names => walk tree.root aim linkLimit names segments
      | .removed parent => walkRemoved tree.root aim parent segments

def resolve (tree : FileTree) (aim : Aim) (p : Path) : Except AccessError Place :=
  if '\x00' ∈ p.text then .error .nulInPath
  else if Text.byteSize p.text > pathLimit then .error (.os .nameTooLong)
  else (tree.follow aim p).mapError .os

def Place.node? : Place → Option Node
  | .found _ node => some node
  | .free _ => none
  | .removed => some .emptyDir

/-- The node that a path leads to through all links. -/
def node? (tree : FileTree) (p : Path) : Option Node :=
  ((tree.resolve .target p).toOption).bind Place.node?

def device? (tree : FileTree) (p : Path) : Option Device :=
  match tree.node? p with
  | some (.device d) => some d
  | _ => none

def isDir (tree : FileTree) (p : Path) : Bool := (tree.node? p).any Node.isDir

def isFile (tree : FileTree) (p : Path) : Bool := (tree.node? p).any Node.isFile

/-- Whether a path leads to anything, be it a link that leads nowhere. -/
def occupied (tree : FileTree) (p : Path) : Bool :=
  (((tree.resolve .entry p).toOption).bind Place.node?).isSome

/-- The path of the current directory, unless it was taken away. -/
def currentPath? (tree : FileTree) : Option Path :=
  match tree.current with
  | .place names => some (pathOf names)
  | .removed _ => none

/-- The path from the root, free of links and dots, to what a path leads to.  It is found step by
step, so that the names and the path that is found are limited in length, but not the path that is
followed.  A relative path is seen from the path of the current directory, so that there has to be
one. -/
def canonical (tree : FileTree) (p : Path) : Except AccessError Path :=
  if '\x00' ∈ p.text then .error .nulInPath
  else if !p.isAbsolute && tree.currentPath?.isNone then .error (.os .notFound)
  else match tree.follow .spelling p with
    | .ok (.found names _) => .ok (pathOf names)
    | .ok _ => .error (.os .notFound)
    | .error e => .error (.os e)

/-- The bytes of the file that a path leads to; a device has none. -/
def read (tree : FileTree) (p : Path) : Except AccessError ByteArray :=
  match tree.resolve .target p with
  | .ok (.found _ (.file bytes _)) => .ok bytes
  | .ok (.found _ (.device _)) => .ok .empty
  | .ok (.free _) => .error (.os .notFound)
  | .ok _ => .error (.os .isDirectory)
  | .error e => .error e

def readText (tree : FileTree) (p : Path) : Except AccessError Text := do
  let bytes ← tree.read p
  match Text.ofBytes? bytes with
  | some t => pure t
  | none => throw .invalidText

/-- The names in the directory that a path leads to; none where it leads to no directory. -/
def names (tree : FileTree) (p : Path) : List Text :=
  match tree.node? p with
  | some (.dir entries) => entries.map (·.1)
  | _ => []

end Optable.FileTree
