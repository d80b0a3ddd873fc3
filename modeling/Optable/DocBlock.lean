import Optable.Path
import Optable.Token
/-!
# Doc blocks

A doc comment documents a primitive if its first line that is not blank is a header: code, flags,
index and display name in front of a colon, the signature after it.  The lines below the header
are the description.
-/

namespace Optable

structure DocHeader where
  qcode : Text
  flags : Text
  /-- The index as it is written. -/
  index : Text
  name : Text
  signature : Text
  deriving DecidableEq, Repr

structure DocBlock where
  header : DocHeader
  description : Text
  origin : Path
  deriving DecidableEq, Repr

/-- The part of a header line before its first colon, and the signature after it. -/
def DocHeader.parts (line : Text) : Text × Text :=
  match Text.cut? ':' line with
  | some (fields, signature) => (fields, Text.trim signature)
  | none => (line, [])

/-- Reads a header line.  It starts with the letter Q, apart from white space, and has at least
four words before its first colon; further words there are not looked at. -/
def DocHeader.ofLine? (line : Text) : Option DocHeader :=
  let line := Text.trim line
  if line.head? = some 'Q' then
    let (fields, signature) := parts line
    match Text.words fields with
    | qcode :: flags :: index :: name :: _ => some ⟨qcode, flags, index, name, signature⟩
    | _ => none
  else none

namespace DocBlock

/-- Reads the body of a doc comment, whose lines have lost the white space at their ends. -/
def ofLines? (origin : Path) (lines : List Text) : Option DocBlock :=
  match lines.dropWhile (·.all Text.isBlank) with
  | [] => none
  | first :: rest =>
    (DocHeader.ofLine? first).map fun header => ⟨header, Text.trim (Text.unlines rest), origin⟩

def ofBody? (origin : Path) (body : Text) : Option DocBlock :=
  ofLines? origin ((Text.lines body).map Text.trimEnd)

def ofToken? (origin : Path) : Token → Option DocBlock
  | .comment body true => ofBody? origin body
  | _ => none

def ofTokens (origin : Path) (tokens : List Token) : List DocBlock :=
  tokens.filterMap (ofToken? origin)

def body (block : DocBlock) : Text :=
  '\n' :: block.header.qcode ++ ' ' :: block.header.flags ++ ' ' :: block.header.index
    ++ ' ' :: block.header.name ++ " : ".toList ++ block.header.signature
    ++ '\n' :: block.description ++ ['\n']

def print (block : DocBlock) : Text := "/**".toList ++ block.body ++ "*/\n".toList

end DocBlock
end Optable
