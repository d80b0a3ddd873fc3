import Optable.Path
/-!
# Patterns of paths

In a pattern a question mark stands for any character and a star for any text without a slash, and
brackets stand for one of the characters in them, or for one that is not.  Two stars next to each
other, which would stand for any number of directories, are not read here.  A text is escaped by
brackets around each special character, so that it stands for itself.
-/

namespace Optable

inductive Pattern.Piece where
  | char (c : Char)
  | any
  | text
  | within (ranges : List (Char × Char))
  | without (ranges : List (Char × Char))
  deriving DecidableEq, Repr

namespace Pattern

/-- The ranges of characters that are listed in brackets, each from a first to a last one. -/
def ranges : Text → List (Char × Char)
  | first :: '-' :: last :: t => (first, last) :: ranges t
  | c :: t => (c, c) :: ranges t
  | [] => []

/-- The pieces of a pattern.  There are none where a bracket is not closed or two stars meet. -/
def read? : Text → Option (List Piece)
  | [] => some []
  | '?' :: t => (read? t).map (.any :: ·)
  | '*' :: '*' :: _ => none
  | '*' :: t => (read? t).map (.text :: ·)
  | '[' :: '!' :: c :: t =>
    match _h : Text.cut? ']' t with
    | some (inside, rest) => (read? rest).map (.without (ranges (c :: inside)) :: ·)
    | none => none
  | '[' :: '!' :: _ => none
  | '[' :: c :: t =>
    match _h : Text.cut? ']' t with
    | some (inside, rest) => (read? rest).map (.within (ranges (c :: inside)) :: ·)
    | none => none
  | ['['] => none
  | c :: t => (read? t).map (.char c :: ·)
termination_by t => t.length
decreasing_by
  all_goals
    simp only [List.length_cons]
    try
      have hlength := congrArg List.length (Text.eq_append_of_cut? _h).1
      simp only [List.length_append, List.length_cons] at hlength
    omega

def lies (ranges : List (Char × Char)) (c : Char) : Bool :=
  ranges.any fun (first, last) => first ≤ c && c ≤ last

def fits : List Piece → Text → Bool
  | [], t => t.isEmpty
  | .text :: pieces, [] => fits pieces []
  | .text :: pieces, c :: t => fits pieces (c :: t) || fits (.text :: pieces) t
  | _ :: _, [] => false
  | .char d :: pieces, c :: t => c = d && fits pieces t
  | .any :: pieces, _ :: t => fits pieces t
  | .within ranges :: pieces, c :: t => lies ranges c && fits pieces t
  | .without ranges :: pieces, c :: t => !lies ranges c && fits pieces t
termination_by pieces t => pieces.length + t.length

def standsFor (segment name : Text) : Bool := (read? segment).any fun pieces => fits pieces name

def isSpecial (c : Char) : Bool := c = '?' || c = '*' || c = '[' || c = ']'

def escape (t : Text) : Text := t.flatMap fun c => if isSpecial c then ['[', c, ']'] else [c]

/-- The pattern of what lies directly inside a directory and has a name with an ending. -/
def inside (dir : Path) (ending : Text) : Text := escape dir.text ++ '/' :: '*' :: ending

end Pattern
end Optable
