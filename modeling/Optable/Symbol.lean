import Optable.Text.Blank
/-!
# Symbols of primitives

The function behind a primitive is named after the primitive's display name.  A display name may
start with a glyph, which a marker (a backslash and a zero) ends; a number sign in front of the
rest makes the primitive an auxiliary one.
-/

namespace Optable.Symbol

/-- What follows the last marker of a text; `none` where there is no marker. -/
def afterMarker? : Text → Option Text
  | [] => none
  | c :: rest =>
    match afterMarker? rest with
    | some tail => some tail
    | none => if c = '\\' ∧ rest.head? = some '0' then some rest.tail else none

/-- The internal name: the part of a display name after its last marker, or the whole of it. -/
def internalName (name : Text) : Text := (afterMarker? name).getD name

def auxiliarySuffix : Text := "aux_".toList

def suffix : Text := "_".toList

def ofInternalName : Text → Text
  | '#' :: base => base ++ auxiliarySuffix
  | name => name ++ suffix

def ofName (name : Text) : Text := ofInternalName (internalName name)

end Optable.Symbol
