import Optable.Text.Blank
/-!
# Decimal text

Digits are the ten ASCII digits.  Numbers are written without leading zeros.
-/

namespace Optable.Text

def digit? (c : Char) : Option Nat :=
  if c.isDigit then some (c.toNat - '0'.toNat) else none

def ofNat (n : Nat) : Text := Nat.toDigits 10 n

def ofInt : Int → Text
  | .ofNat n => ofNat n
  | .negSucc n => '-' :: ofNat (n + 1)

end Optable.Text
