import Optable.Collision
import Optable.Declaration
import Optable.SymbolSet
/-!
# The sections of the header

The header declares every symbol once, native ones in a section of their own.  A symbol that is
declared both ways belongs to the native section alone, and is reported.
-/

namespace Optable

structure Sections where
  regular : SymbolSet
  native : SymbolSet

namespace Sections

def nativeSymbols (declarations : List Declaration) : SymbolSet :=
  .ofList ((declarations.filter (·.native)).map (·.symbol))

def regularSymbols (declarations : List Declaration) : SymbolSet :=
  .ofList ((declarations.filter (!·.native)).map (·.symbol))

def ofDeclarations (declarations : List Declaration) : Sections where
  regular := (regularSymbols declarations).diff (nativeSymbols declarations)
  native := nativeSymbols declarations

/-- The symbols that a list of declarations declares both ways, in ascending order. -/
def conflicts (declarations : List Declaration) : List Collision :=
  ((regularSymbols declarations).inter (nativeSymbols declarations)).toList.map .nativeConflict

end Sections
end Optable
