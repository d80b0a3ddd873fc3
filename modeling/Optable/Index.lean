import Optable.Text.Decimal
/-!
# Reading an index

An index is a number of 64 bits with sign.  Its text is an optional sign followed by digits, read
from left to right: what goes wrong first decides between a text that is no number and a number
that is out of range.
-/

namespace Optable.Index

def least : Int := -9223372036854775808

def greatest : Int := 9223372036854775807

def InRange (i : Int) : Prop := least ≤ i ∧ i ≤ greatest

instance (i : Int) : Decidable (InRange i) := inferInstanceAs (Decidable (_ ∧ _))

inductive Reading where
  | number (value : Int)
  | outOfRange
  | notNumber
  deriving DecidableEq, Repr

/-- Reads digits after a number already read, as further digits of it.  A number below zero grows
downwards, so that the least index can be read. -/
def readDigits (negative : Bool) (read : Int) : Text → Reading
  | [] => .number read
  | c :: rest =>
    match Text.digit? c with
    | none => .notNumber
    | some d =>
      let next := if negative then 10 * read - d else 10 * read + d
      if InRange next then readDigits negative next rest else .outOfRange

/-- Reads an index text: one sign at most, then at least one digit. -/
def read : Text → Reading
  | [] | ['+'] | ['-'] => .notNumber
  | '+' :: digits => readDigits false 0 digits
  | '-' :: digits => readDigits true 0 digits
  | digits => readDigits false 0 digits

theorem inRange_of_readDigits {negative : Bool} {i v : Int} {t : Text} (hi : InRange i)
    (h : readDigits negative i t = .number v) : InRange v := by
  fun_induction readDigits negative i t with
  | case1 => simp_all
  | case2 => simp at h
  | case3 _ _ _ _ _ _ hnext ih => exact ih hnext h
  | case4 => simp at h

theorem inRange_of_read {t : Text} {v : Int} (h : read t = .number v) : InRange v := by
  have zero : InRange 0 := by decide
  unfold read at h
  split at h
  · simp at h
  · simp at h
  · simp at h
  · exact inRange_of_readDigits zero h
  · exact inRange_of_readDigits zero h
  · exact inRange_of_readDigits zero h

end Optable.Index
