import Optable.Json.Reader
import Optable.Path
/-!
# Compile databases

A compile database is a JSON array with one entry for each compiled file.  An entry is an object
with the file and perhaps the directory that the file is seen from, or an array of the two; other
fields of an object do not matter.
-/

namespace Optable

structure CompiledFile where
  file : Path
  /-- The directory in which the file was compiled. -/
  directory : Option Path
  deriving DecidableEq, Repr

namespace CompiledFile

def path? : Json.Value → Option Path
  | .string (some t) => some ⟨t⟩
  | _ => none

/-- A path given as a string, or none. -/
def optionalPath? : Json.Value → Option (Option Path)
  | .null => some none
  | value => (path? value).map some

def valuesOf (name : String) (fields : List (Json.StringText × Json.Value)) : List Json.Value :=
  (fields.filter (·.1 = some name.toList)).map (·.2)

/-- Reads an object.  It has one file and at most one directory, and its field names are texts. -/
def ofFields? (fields : List (Json.StringText × Json.Value)) : Option CompiledFile :=
  if fields.any (·.1.isNone) then none
  else match valuesOf "file" fields, valuesOf "directory" fields with
    | [file], [] => (path? file).map (⟨·, none⟩)
    | [file], [directory] => do
      let file ← path? file
      let directory ← optionalPath? directory
      return ⟨file, directory⟩
    | _, _ => none

def ofValue? : Json.Value → Option CompiledFile
  | .object fields => ofFields? fields
  | .array [file] => (path? file).map (⟨·, none⟩)
  | .array [file, directory] => do
    let file ← path? file
    let directory ← optionalPath? directory
    return ⟨file, directory⟩
  | _ => none

end CompiledFile

namespace CompileDatabase

def fileName : Path := Path.ofString "compile_commands.json"

/-- Reads the entries of a database, in order, or says what is wrong with it. -/
abbrev Reader := Text → Except Text (List CompiledFile)

def read : Reader := fun t =>
  match Json.read? t with
  | some (.array values) =>
    match values.mapM CompiledFile.ofValue? with
    | some files => .ok files
    | none => .error "an entry is of another form".toList
  | _ => .error "no array".toList

end CompileDatabase
end Optable
