import Optable.Text.Utf8
import Optable.Token
/-!
# Tokens by byte offsets

The tokens of a text can be read from its bytes, with an offset that moves on from token to token.
A part of the bytes is cut out only between offsets at which characters start or the bytes end; a
cut elsewhere makes the reading fail, and so does an offset that never reaches the end.
-/

namespace Optable.Token.Offsets

/-- Whether a byte continues a character that an earlier byte starts. -/
def continues (b : UInt8) : Bool := 0x80 ≤ b.toNat && b.toNat < 0xC0

/-- Whether a character starts at an offset, or the bytes end there. -/
def isBoundary (bytes : ByteArray) (i : Nat) : Bool :=
  match bytes[i]? with
  | some b => i = 0 || !continues b
  | none => i = bytes.size

/-- The text between two offsets, if both are boundaries in their order. -/
def slice? (bytes : ByteArray) (start stop : Nat) : Option Text :=
  if start ≤ stop ∧ isBoundary bytes start ∧ isBoundary bytes stop then
    Text.ofBytes? (bytes.extract start stop)
  else none

def has (bytes : ByteArray) (i : Nat) (p : Char → Bool) : Bool :=
  bytes[i]?.any fun b => p (Char.ofNat b.toNat)

def skipWhile (bytes : ByteArray) (p : Char → Bool) (i : Nat) : Nat :=
  if h : i < bytes.size then
    if p (Char.ofNat bytes[i].toNat) then skipWhile bytes p (i + 1) else i
  else i
termination_by bytes.size - i

def findClose? (bytes : ByteArray) (i : Nat) : Option Nat :=
  if i < bytes.size then
    if has bytes i (· = '*') && has bytes (i + 1) (· = '/') then some i
    else findClose? bytes (i + 1)
  else none
termination_by bytes.size - i

/-- The offset after a quoted literal, from an offset inside it.  A backslash takes one more byte
with it, whatever character that byte belongs to. -/
def afterQuote (bytes : ByteArray) (quote : Char) (j : Nat) : Nat :=
  if j < bytes.size then
    if has bytes j (· = '\\') then afterQuote bytes quote (j + 2)
    else if has bytes j (· = '\n') then j
    else if has bytes j (· = quote) then j + 1
    else afterQuote bytes quote (j + 1)
  else bytes.size
termination_by bytes.size - j

inductive Found where
  | gap (next : Nat)
  | token (token : Token) (next : Nat)
  /-- A comment that is not closed. -/
  | openComment
  /-- Bytes were to be cut apart inside a character. -/
  | badCut
  deriving DecidableEq, Repr

def tokenTo (bytes : ByteArray) (start stop next : Nat) (make : Text → Token) : Found :=
  match slice? bytes start stop with
  | some t => .token (make t) next
  | none => .badCut

def find (bytes : ByteArray) (i : Nat) : Found :=
  if has bytes i isGap then .gap (i + 1)
  else if has bytes i (· = '/') && has bytes (i + 1) (· = '*') then
    match slice? bytes (i + 2) bytes.size, findClose? bytes (i + 2) with
    | none, _ => .badCut
    | some _, none => .openComment
    | some _, some close => tokenTo bytes (i + 2) close (close + 2) ofComment
  else if has bytes i (· = '/') && has bytes (i + 1) (· = '/') then
    tokenTo bytes i bytes.size (skipWhile bytes (· ≠ '\n') i) fun _ => .lineComment
  else if has bytes i (· = '"') then .token .literal (afterQuote bytes '"' (i + 1))
  else if has bytes i (· = '\'') then .token .literal (afterQuote bytes '\'' (i + 1))
  else if has bytes i isIdentStart then
    let stop := skipWhile bytes isIdentPart i
    tokenTo bytes i stop stop .ident
  else if has bytes i Char.isDigit then .token .literal (skipWhile bytes isNumberPart i)
  else
    match slice? bytes i bytes.size with
    | some (c :: _) => .token (.punct c) (i + c.utf8Size)
    | _ => .badCut

def tokensFrom? (bytes : ByteArray) : Nat → Nat → Option (List Token)
  | 0, _ => none
  | rounds + 1, i =>
    if i < bytes.size then
      match find bytes i with
      | .gap next => tokensFrom? bytes rounds next
      | .token token next => (tokensFrom? bytes rounds next).map (token :: ·)
      | .openComment => some []
      | .badCut => none
    else some []

/-- The tokens of bytes.  There is a round for each byte and one more. -/
def ofBytes? (bytes : ByteArray) : Option (List Token) := tokensFrom? bytes (bytes.size + 1) 0

end Optable.Token.Offsets
