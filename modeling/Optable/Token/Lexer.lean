import Optable.Token
/-!
# The tokens of a text

`Token.next?` reads one token at the start of a text and gives the rest of it; `Token.ofText`
repeats that, skipping the gaps.  Each token read shortens the text (`length_next?_lt`), which is
why the repetition ends.
-/

namespace Optable.Token

/-- The text between the opening of a block comment and its first closing delimiter, and what
follows the delimiter; `none` where the comment is not closed. -/
def untilClose? : Text → Option (Text × Text)
  | [] => none
  | '*' :: '/' :: rest => some ([], rest)
  | c :: rest => (untilClose? rest).map fun (body, after) => (c :: body, after)

/-- What follows a quoted literal, given the text after its opening quote.  A backslash takes the
next character with it; a line feed ends the literal and is left standing. -/
def afterQuote (quote : Char) : Text → Text
  | [] => []
  | '\\' :: _ :: rest => afterQuote quote rest
  | c :: rest =>
    if c = '\n' then c :: rest
    else if c = quote then rest
    else afterQuote quote rest

/-- The token at the start of a text, and the rest of the text.  There is none where the text is
empty or starts a block comment that is not closed. -/
def next? : Text → Option (Token × Text)
  | [] => none
  | '/' :: '*' :: t => (untilClose? t).map fun (body, rest) => (ofComment body, rest)
  | '/' :: '/' :: t => some (.lineComment, t.dropWhile (· ≠ '\n'))
  | c :: t =>
    if isQuote c then some (.literal, afterQuote c t)
    else if isIdentStart c then
      some (.ident (c :: t.takeWhile isIdentPart), t.dropWhile isIdentPart)
    else if c.isDigit then some (.literal, t.dropWhile isNumberPart)
    else some (.punct c, t)

theorem untilClose?_eq_some {t body rest : Text} (h : untilClose? t = some (body, rest)) :
    t = body ++ '*' :: '/' :: rest := by
  fun_induction untilClose? t generalizing body with
  | case1 => simp at h
  | case2 => simp_all
  | case3 c t _ ih =>
    simp only [Option.map_eq_some_iff, Prod.mk.injEq, Prod.exists] at h
    obtain ⟨body', rest', h, rfl, rfl⟩ := h
    rw [ih h, List.cons_append]

theorem afterQuote_suffix (quote : Char) (t : Text) : afterQuote quote t <:+ t := by
  fun_induction afterQuote quote t with
  | case1 => exact List.suffix_rfl
  | case2 _ _ ih => exact ih.trans ((List.suffix_cons _ _).trans (List.suffix_cons _ _))
  | case3 => exact List.suffix_rfl
  | case4 => exact List.suffix_cons _ _
  | case5 _ _ _ _ _ ih => exact ih.trans (List.suffix_cons _ _)

theorem length_next?_lt {t rest : Text} {token : Token} (h : next? t = some (token, rest)) :
    rest.length < t.length := by
  unfold next? at h
  split at h
  · simp at h
  · simp only [Option.map_eq_some_iff, Prod.mk.injEq, Prod.exists] at h
    obtain ⟨body, rest', h, _, rfl⟩ := h
    rw [untilClose?_eq_some h]
    simp only [List.length_cons, List.length_append]
    omega
  · simp only [Option.some.injEq, Prod.mk.injEq] at h
    obtain ⟨_, rfl⟩ := h
    have := (List.dropWhile_suffix (l := ‹Text›) (· ≠ '\n')).length_le
    simp only [List.length_cons]
    omega
  · next c t _ _ =>
    have hq := (afterQuote_suffix c t).length_le
    have hi := (List.dropWhile_suffix (l := t) isIdentPart).length_le
    have hn := (List.dropWhile_suffix (l := t) isNumberPart).length_le
    simp only [List.length_cons]
    split at h
    · grind
    split at h
    · grind
    split at h
    · grind
    · grind

/-- The tokens of a text.  Reading stops at a block comment that is not closed. -/
def ofText (t : Text) : List Token :=
  match h : next? (t.dropWhile isGap) with
  | none => []
  | some (token, rest) =>
    have : rest.length < t.length :=
      Nat.lt_of_lt_of_le (length_next?_lt h) (List.dropWhile_suffix isGap).length_le
    token :: ofText rest
termination_by t.length

end Optable.Token
