import Optable.Collision
import Optable.DocBlock
import Optable.Index
import Optable.Literal
import Optable.Symbol
/-!
# Rows of the table

A doc block whose index is a number in range becomes a row.  One whose index is a number out of
range is left out with a warning, and one whose index is no number is left out silently.  Rows are
ordered by index, and rows of one index keep their order.
-/

namespace Optable

/-- A row of the table.  Name, signature and description are escaped. -/
structure Entry where
  index : Int
  /-- The index as the doc block writes it. -/
  indexText : Text
  qcode : Text
  flags : Text
  name : Text
  symbol : Text
  signature : Text
  description : Text
  deriving DecidableEq, Repr

namespace Entry

def make (index : Int) (block : DocBlock) : Entry where
  index := index
  indexText := block.header.index
  qcode := block.header.qcode
  flags := block.header.flags
  name := Literal.escape block.header.name
  symbol := Symbol.ofName block.header.name
  signature := Literal.escape block.header.signature
  description := Literal.escape block.description

def ofBlock? (block : DocBlock) : Option Entry :=
  match Index.read block.header.index with
  | .number index => some (make index block)
  | _ => none

def warning? (block : DocBlock) : Option Warning :=
  match Index.read block.header.index with
  | .outOfRange => some (.indexOutOfRange block.origin block.header.index block.header.name)
  | _ => none

def ofBlocks (blocks : List DocBlock) : List Entry := blocks.filterMap ofBlock?

def warnings (blocks : List DocBlock) : List Warning := blocks.filterMap warning?

/-- The rows by ascending index; rows of one index stay in their order. -/
def order (entries : List Entry) : List Entry :=
  entries.mergeSort fun a b => a.index ≤ b.index

/-- The collision of a group of rows that have one index, if it has more than one row. -/
def collision? : List Entry → Option Collision
  | a :: b :: rest => some (.sharedIndex a.index ((a :: b :: rest).map (·.name)))
  | _ => none

/-- The indices that several rows share, given the rows by ascending index. -/
def collisions (ordered : List Entry) : List Collision :=
  (ordered.splitBy fun a b => a.index = b.index).filterMap collision?

end Entry
end Optable
