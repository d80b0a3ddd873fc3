import Optable.Assembly
/-!
# Generated files

The text of the three generated files.  The list of includes names each grouped file, the header
has one prototype a line, and the table has one row a line.
-/

namespace Optable

structure Artifact where
  path : Path
  contents : Text
  deriving DecidableEq, Repr

namespace Artifact

def banner : Text := "/* Generated file - do not edit */\n".toList

def includeLine (file : Text) : Text := "#include \"".toList ++ file ++ "\"\n".toList

def renderIncludes (files : List Text) : Text :=
  banner ++ "/* Includes grouped builtin files */\n\n".toList ++ files.flatMap includeLine

def headerGuard : Text := "JOY_BUILTIN_GENERATED_H".toList

def nativeGuard : Text := "JOY_NATIVE_TYPES".toList

def prototype (symbol : Text) : Text := "void ".toList ++ symbol ++ "(pEnv env);\n".toList

/-- The section of native symbols; without any there is no section. -/
def renderNative (set : SymbolSet) : Text :=
  if set.toList.isEmpty then []
  else "\n#ifdef ".toList ++ nativeGuard ++ "\n".toList ++ set.toList.flatMap prototype
    ++ "#endif /* ".toList ++ nativeGuard ++ " */\n".toList

def renderHeader (sections : Sections) : Text :=
  "#ifndef ".toList ++ headerGuard ++ "\n#define ".toList ++ headerGuard ++ "\n\n".toList
    ++ banner ++ "/* Declares all builtin functions */\n\n#include \"globals.h\"\n\n".toList
    ++ sections.regular.toList.flatMap prototype
    ++ renderNative sections.native
    ++ "\n#endif /* ".toList ++ headerGuard ++ " */\n".toList

/-- The width that an index is filled up to with spaces on its left. -/
def indexWidth : Nat := 4

def row (e : Entry) : Text :=
  "/* ".toList ++ List.leftpad indexWidth ' ' e.indexText ++ " */ \x7b ".toList
    ++ e.qcode ++ ", ".toList ++ e.flags ++ ", ".toList ++ Literal.quoted e.name ++ ", ".toList
    ++ e.symbol ++ ", ".toList ++ Literal.quoted e.signature ++ ", ".toList
    ++ Literal.quoted e.description ++ " \x7d,\n".toList

def renderTable (entries : List Entry) : Text := entries.flatMap row

def render (assembly : Assembly) : ArtifactKind → Text
  | .includes => renderIncludes assembly.includes
  | .header => renderHeader assembly.sections
  | .table => renderTable assembly.entries

end Artifact
end Optable
