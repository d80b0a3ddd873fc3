import Optable.Text.Blank
/-!
# Tokens

The tokens of C source text, as far as declarations and doc blocks need them: identifiers keep
their text and punctuation its character, a block comment keeps its body, and literals and line
comments keep nothing.
-/

namespace Optable

inductive Token where
  | ident (name : Text)
  | punct (mark : Char)
  /-- A block comment.  It is a doc comment if a second star opens it; the body is what stands
  after that star, or after the first one. -/
  | comment (body : Text) (doc : Bool)
  | lineComment
  | literal
  deriving DecidableEq, Repr

namespace Token

/-- The characters that separate tokens: the white space of C without the vertical tab. -/
def isGap (c : Char) : Bool :=
  c = ' ' || c = '\t' || c = '\n' || c = '\x0C' || c = '\r'

def isIdentStart (c : Char) : Bool := c.isAlpha || c = '_'

def isIdentPart (c : Char) : Bool := c.isAlphanum || c = '_'

def isNumberPart (c : Char) : Bool := c.isAlphanum || c = '.'

def isQuote (c : Char) : Bool := c = '"' || c = '\''

def ofComment : Text → Token
  | '*' :: body => .comment body true
  | body => .comment body false

end Token
end Optable
