import Optable.Json.Value
/-!
# Reading JSON

A strict reader: white space is space, tab, line feed and carriage return, strings hold no control
characters, numbers have no leading zeros, and nothing follows the value.  Objects and arrays may
be nested to any depth, since each level takes at least one character.
-/

namespace Optable.Json

def isSpace (c : Char) : Bool := c = ' ' || c = '\t' || c = '\n' || c = '\r'

def skipSpace (t : Text) : Text := t.dropWhile isSpace

def hexDigit? (c : Char) : Option Nat :=
  if c.isDigit then some (c.toNat - '0'.toNat)
  else if 'a'.toNat ≤ c.toNat ∧ c.toNat ≤ 'f'.toNat then some (c.toNat - 'a'.toNat + 10)
  else if 'A'.toNat ≤ c.toNat ∧ c.toNat ≤ 'F'.toNat then some (c.toNat - 'A'.toNat + 10)
  else none

def hex? (a b c d : Char) : Option Nat := do
  return (((← hexDigit? a) * 16 + (← hexDigit? b)) * 16 + (← hexDigit? c)) * 16 + (← hexDigit? d)

def unescape? : Char → Option Char
  | '"' => some '"'
  | '\\' => some '\\'
  | '/' => some '/'
  | 'b' => some '\x08'
  | 'f' => some '\x0C'
  | 'n' => some '\n'
  | 'r' => some '\r'
  | 't' => some '\t'
  | _ => none

/-- A part of a string: a character, or a UTF-16 unit given by its number. -/
inductive StringPart where
  | char (c : Char)
  | unit (n : Nat)

def isHigh (n : Nat) : Bool := 0xD800 ≤ n && n < 0xDC00

def isLow (n : Nat) : Bool := 0xDC00 ≤ n && n < 0xE000

def joinParts : List StringPart → StringText
  | [] => some []
  | .char c :: rest => (joinParts rest).map (c :: ·)
  | .unit n :: rest =>
    if isHigh n then
      match rest with
      | .unit m :: rest =>
        if isLow m then
          let c := Char.ofNat (0x10000 + (n - 0xD800) * 0x400 + (m - 0xDC00))
          (joinParts rest).map (c :: ·)
        else none
      | _ => none
    else if isLow n then none
    else (joinParts rest).map (Char.ofNat n :: ·)

def parts? : Text → Option (List StringPart × Text)
  | [] => none
  | '"' :: rest => some ([], rest)
  | '\\' :: 'u' :: a :: b :: c :: d :: rest => do
    let n ← hex? a b c d
    let (parts, after) ← parts? rest
    return (.unit n :: parts, after)
  | '\\' :: c :: rest => do
    let c ← unescape? c
    let (parts, after) ← parts? rest
    return (.char c :: parts, after)
  | c :: rest => do
    if c.toNat < 0x20 || c = '\\' then none
    let (parts, after) ← parts? rest
    return (.char c :: parts, after)

def string? (t : Text) : Option (StringText × Text) :=
  (parts? t).map fun (parts, rest) => (joinParts parts, rest)

def digits? : Text → Option Text
  | c :: rest => if c.isDigit then some (rest.dropWhile Char.isDigit) else none
  | [] => none

/-- Reads the whole part of a number: a lone zero, or digits that start with none. -/
def whole? : Text → Option Text
  | '0' :: c :: rest => if c.isDigit then none else some (c :: rest)
  | t => digits? t

def fraction? : Text → Option Text
  | '.' :: rest => digits? rest
  | t => some t

def exponent? : Text → Option Text
  | c :: rest =>
    if c = 'e' ∨ c = 'E' then
      match rest with
      | '+' :: rest => digits? rest
      | '-' :: rest => digits? rest
      | rest => digits? rest
    else some (c :: rest)
  | [] => some []

def number? (t : Text) : Option (Text × Text) := do
  let rest ← whole? (if t.head? = some '-' then t.tail else t)
  let rest ← fraction? rest
  let rest ← exponent? rest
  return (t.take (t.length - rest.length), rest)

mutual

/-- Reads a value nested at most so many levels deep. -/
def value? : Nat → Text → Option (Value × Text)
  | 0, _ => none
  | depth + 1, t =>
    match skipSpace t with
    | 'n' :: 'u' :: 'l' :: 'l' :: rest => some (.null, rest)
    | 't' :: 'r' :: 'u' :: 'e' :: rest => some (.boolean true, rest)
    | 'f' :: 'a' :: 'l' :: 's' :: 'e' :: rest => some (.boolean false, rest)
    | '"' :: rest => (string? rest).map fun (s, rest) => (.string s, rest)
    | '[' :: rest =>
      match skipSpace rest with
      | ']' :: rest => some (.array [], rest)
      | rest => (items? depth rest).map fun (items, rest) => (.array items, rest)
    | '\x7b' :: rest =>
      match skipSpace rest with
      | '\x7d' :: rest => some (.object [], rest)
      | rest => (fields? depth rest).map fun (fields, rest) => (.object fields, rest)
    | t => (number? t).map fun (spelling, rest) => (.number spelling, rest)

def items? : Nat → Text → Option (List Value × Text)
  | 0, _ => none
  | depth + 1, t => do
    let (item, rest) ← value? depth t
    match skipSpace rest with
    | ']' :: rest => return ([item], rest)
    | ',' :: rest =>
      let (items, rest) ← items? depth rest
      return (item :: items, rest)
    | _ => none

def fields? : Nat → Text → Option (List (StringText × Value) × Text)
  | 0, _ => none
  | depth + 1, t => do
    match skipSpace t with
    | '"' :: rest =>
      let (name, rest) ← string? rest
      match skipSpace rest with
      | ':' :: rest =>
        let (value, rest) ← value? depth rest
        match skipSpace rest with
        | '\x7d' :: rest => return ([(name, value)], rest)
        | ',' :: rest =>
          let (fields, rest) ← fields? depth rest
          return ((name, value) :: fields, rest)
        | _ => none
      | _ => none
    | _ => none

end

def read? (t : Text) : Option Value :=
  match value? (2 * t.length + 2) t with
  | some (value, rest) => if (skipSpace rest).isEmpty then some value else none
  | none => none

end Optable.Json
