import Optable.Text.Blank
/-!
# Text inside a string literal

Row texts are written between double quotes.  Quotes and line feeds are escaped; a backslash
stays as it is, so that an escape sequence of the display name reaches the compiler.
-/

namespace Optable.Literal

def escapeChar : Char → Text
  | '"' => ['\\', '"']
  | '\n' => ['\\', 'n']
  | c => [c]

def escape (t : Text) : Text := t.flatMap escapeChar

/-- Reads an escaped text back: a backslash before a quote or the letter n is undone with it, any
other pair that a backslash starts stays. -/
def unescape : Text → Text
  | [] => []
  | '\\' :: '"' :: t => '"' :: unescape t
  | '\\' :: 'n' :: t => '\n' :: unescape t
  | '\\' :: c :: t => '\\' :: c :: unescape t
  | c :: t => c :: unescape t

def quoted (t : Text) : Text := '"' :: t ++ ['"']

theorem newline_notMem_escape (t : Text) : '\n' ∉ escape t := by
  simp only [escape, List.mem_flatMap, not_exists, not_and]
  intro c _
  unfold escapeChar
  split <;> simp_all [eq_comm]

end Optable.Literal
