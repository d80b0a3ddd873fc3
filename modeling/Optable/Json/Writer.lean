import Optable.Json.Value
import Optable.Text.Decimal
/-!
# Writing JSON

A value is written on one line.  In strings, quotes, backslashes and control characters are
escaped.
-/

namespace Optable.Json

def hexDigit (n : Nat) : Char := Nat.digitChar (n % 16)

def writeChar (c : Char) : Text :=
  if c = '"' ∨ c = '\\' then ['\\', c]
  else if c.toNat < 0x20 then ['\\', 'u', '0', '0', hexDigit (c.toNat / 16), hexDigit c.toNat]
  else [c]

/-- A string in quotes.  One without a text is written as the replacement character. -/
def writeString (s : StringText) : Text :=
  '"' :: (s.getD ['\uFFFD']).flatMap writeChar ++ ['"']

mutual

def write : Value → Text
  | .null => "null".toList
  | .boolean b => (if b then "true" else "false").toList
  | .number spelling => spelling
  | .string s => writeString s
  | .array items => '[' :: List.intercalate [','] (writeItems items) ++ [']']
  | .object fields => '\x7b' :: List.intercalate [','] (writeFields fields) ++ ['\x7d']

def writeItems : List Value → List Text
  | [] => []
  | item :: rest => write item :: writeItems rest

def writeFields : List (StringText × Value) → List Text
  | [] => []
  | (name, value) :: rest => (writeString name ++ ':' :: write value) :: writeFields rest

end

def ofText (t : Text) : Value := .string (some t)

def ofNat (n : Nat) : Value := .number (Text.ofNat n)

def ofFields (fields : List (String × Value)) : Value :=
  .object (fields.map fun (name, value) => (some name.toList, value))

/-- The value of a field of an object, the first if there are several. -/
def field? (name : String) : Value → Option Value
  | .object fields => fields.lookup (some name.toList)
  | _ => none

def text? : Value → Option Text
  | .string s => s
  | _ => none

end Optable.Json
