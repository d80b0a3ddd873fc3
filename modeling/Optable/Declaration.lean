import Optable.Path
import Optable.Symbol
import Optable.Text.Word
import Optable.Token
/-!
# Declarations of primitives

Two shapes of source text declare a primitive: a function of the environment alone, such as
`void plus_(pEnv env)`, and a macro call with the primitive in front, such as `UNARY(ceil_, ceil)`.
A file of one primitive declares it by its own name.  A function right after a comment with the
native marker exists only where native types do.
-/

namespace Optable

inductive DeclarationKind where
  | function
  | macroCall
  | fileStem
  deriving DecidableEq, Repr

structure Declaration where
  token : Text
  kind : DeclarationKind
  native : Bool
  origin : Path
  deriving DecidableEq, Repr

namespace Declaration

/-- The symbol that is declared.  In source text the name is the symbol itself; the stem of a file
is a display name. -/
def symbol (d : Declaration) : Text :=
  match d.kind with
  | .function | .macroCall => d.token
  | .fileStem => Symbol.ofName d.token

def nativeMarker : Text := "[NATIVE]".toList

/-- The names of primitives in source text: at least two word characters, an underscore last. -/
def isPrimitive (name : Text) : Bool :=
  1 < name.length && name.all Text.isWord && name.getLast? = some '_'

/-- The names of macros that declare a primitive: a capital letter, then at least one capital
letter, digit or underscore. -/
def isMacro : Text → Bool
  | first :: second :: rest =>
    first.isUpper && (second :: rest).all fun c => c.isUpper || c.isDigit || c = '_'
  | _ => false

def functionName? : List Token → Option Text
  | .ident result :: .ident name :: .punct '(' :: .ident parameter :: .ident _ :: .punct ')' :: _ =>
    if result = "void".toList ∧ parameter = "pEnv".toList ∧ isPrimitive name then some name
    else none
  | _ => none

def macroArgument? : List Token → Option Text
  | .ident callee :: .punct '(' :: .ident argument :: .punct ',' :: _ =>
    if isMacro callee ∧ isPrimitive argument then some argument else none
  | _ => none

def marksNative : Token → Bool
  | .comment body _ => Text.contains nativeMarker body
  | _ => false

/-- The declaration at the start of the tokens, given the token before them. -/
def next? (origin : Path) (before : Option Token) (tokens : List Token) : Option Declaration :=
  match functionName? tokens with
  | some name => some ⟨name, .function, before.any marksNative, origin⟩
  | none => (macroArgument? tokens).map fun name => ⟨name, .macroCall, false, origin⟩

def after (origin : Path) (before : Option Token) : List Token → List Declaration
  | [] => []
  | token :: rest => (next? origin before (token :: rest)).toList ++ after origin (some token) rest

def ofTokens (origin : Path) (tokens : List Token) : List Declaration := after origin none tokens

def ofFileName (origin : Path) : List Declaration :=
  origin.stem?.toList.map fun stem => ⟨stem, .fileStem, false, origin⟩

end Declaration
end Optable
