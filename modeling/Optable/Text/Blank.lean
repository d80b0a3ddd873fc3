/-!
# Blank characters, words and lines

A text is the list of its characters.  This module holds the white space of the Unicode property
`White_Space` and what rests on it: trimming at either end and the words of a text.  Lines end at
line feeds alone.
-/

namespace Optable

/-- A text is the list of its characters. -/
abbrev Text := List Char

namespace Text

/-- The code points with the property `White_Space`, as closed ranges in ascending order. -/
def blankRanges : List (Nat × Nat) :=
  [(0x09, 0x0D), (0x20, 0x20), (0x85, 0x85), (0xA0, 0xA0), (0x1680, 0x1680),
   (0x2000, 0x200A), (0x2028, 0x2029), (0x202F, 0x202F), (0x205F, 0x205F), (0x3000, 0x3000)]

def isBlank (c : Char) : Bool :=
  blankRanges.any fun (first, last) => first ≤ c.toNat && c.toNat ≤ last

def trimStart (t : Text) : Text := t.dropWhile isBlank

def trimEnd (t : Text) : Text := (t.reverse.dropWhile isBlank).reverse

def trim (t : Text) : Text := trimEnd (trimStart t)

/-- The maximal runs of characters that are not blank, in order. -/
def words (t : Text) : List Text := (t.splitOnP isBlank).filter (!·.isEmpty)

/-- The lines of a text, without the line feeds that separate them.  A text has one line more
than it has line feeds. -/
def lines (t : Text) : List Text := t.splitOn '\n'

/-- The lines joined by line feeds, none after the last. -/
def unlines (ls : List Text) : Text := List.intercalate ['\n'] ls

theorem unlines_lines (t : Text) : unlines (lines t) = t :=
  List.intercalate_splitOn '\n'

/-- The part before the first `c` and the part after it; `none` where there is no `c`. -/
def cut? (c : Char) : Text → Option (Text × Text)
  | [] => none
  | d :: t => if d = c then some ([], t) else (cut? c t).map fun (a, b) => (d :: a, b)

theorem eq_append_of_cut? {c : Char} {t a b : Text} (h : cut? c t = some (a, b)) :
    t = a ++ c :: b ∧ c ∉ a := by
  induction t generalizing a with
  | nil => simp [cut?] at h
  | cons d t ih =>
    by_cases hd : d = c
    · simp only [cut?, hd, if_true, Option.some.injEq, Prod.mk.injEq] at h
      obtain ⟨rfl, rfl⟩ := h
      simp [hd]
    · simp only [cut?, hd, if_false, Option.map_eq_some_iff, Prod.mk.injEq, Prod.exists] at h
      obtain ⟨a', b', h', rfl, rfl⟩ := h
      obtain ⟨rfl, ha⟩ := ih h'
      simp [ha, Ne.symm hd]

def contains (p : Text) : Text → Bool
  | [] => p.isEmpty
  | c :: t => p.isPrefixOf (c :: t) || contains p t

end Text
end Optable
