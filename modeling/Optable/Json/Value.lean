import Optable.Text.Blank
/-!
# JSON values

A JSON value as its text gives it: objects keep their fields in order, repeated names included,
and numbers keep their spelling.  A string whose escapes leave half a surrogate pair has no text.
-/

namespace Optable.Json

/-- The text of a string; `none` where an escape names half a surrogate pair. -/
abbrev StringText := Option Text

inductive Value where
  | null
  | boolean (b : Bool)
  | number (spelling : Text)
  | string (text : StringText)
  | array (items : List Value)
  | object (fields : List (StringText × Value))
  deriving Inhabited

end Optable.Json
