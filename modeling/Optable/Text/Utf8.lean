import Optable.Text.Blank
/-!
# Texts as bytes

Files hold bytes.  A text is written in UTF-8, and bytes are read as a text only where they are
UTF-8 as a whole.
-/

namespace Optable.Text

def toBytes (t : Text) : ByteArray := (String.ofList t).toByteArray

/-- The text that bytes spell in UTF-8, if they are UTF-8. -/
def ofBytes? (bytes : ByteArray) : Option Text := (String.fromUTF8? bytes).map String.toList

def byteSize (t : Text) : Nat := t.foldl (fun n c => n + c.utf8Size) 0

theorem ofBytes?_toBytes (t : Text) : ofBytes? (toBytes t) = some t := by
  have h : String.fromUTF8? (String.ofList t).toByteArray = some (String.ofList t) := by
    unfold String.fromUTF8?
    rw [dif_pos (String.ofList t).isValidUTF8]
    rfl
  rw [ofBytes?, toBytes, h, Option.map_some, String.toList_ofList]

end Optable.Text
