import Optable.Proofs.Lexeme
/-!
# Texts as gaps and lexemes

Reading the tokens of a text loses none of it.  The text is a row of lexemes with gaps between
them, one lexeme for each token, and what follows the last gap is nothing or a comment that is not
closed.
-/

namespace Optable.Token

open Text (StopsAt stopsAt_nil stopsAt_cons stopsAt_dropWhile dropWhile_of_stopsAt)

/-- A lexeme of a text, with the gap in front of it and the token that it spells. -/
structure Piece where
  gap : Text
  lexeme : Text
  token : Token

/-- The text that a piece takes. -/
def Piece.text (piece : Piece) : Text := piece.gap ++ piece.lexeme

/-- A block comment that is not closed. -/
def IsOpenComment (t : Text) : Prop := ∃ body, t = '/' :: '*' :: body ∧ NoClose body

/-- Pieces fit in front of a text where each gap is blank and each lexeme spells its token in
front of all that follows it. -/
def Fits (tail : Text) : List Piece → Prop
  | [] => True
  | piece :: pieces =>
    piece.gap.all isGap ∧
      IsLexeme piece.token piece.lexeme (pieces.flatMap Piece.text ++ tail) ∧ Fits tail pieces

/-- A text as pieces, a last gap, and a rest in which there is no token. -/
structure IsPartition (t : Text) (pieces : List Piece) (gap rest : Text) : Prop where
  text_eq : t = pieces.flatMap Piece.text ++ (gap ++ rest)
  fits : Fits (gap ++ rest) pieces
  gap_blank : gap.all isGap
  rest_tokenless : rest = [] ∨ IsOpenComment rest

/-! ## Reading on -/

theorem IsLexeme.stopsAt_isGap {token : Token} {lexeme rest : Text}
    (h : IsLexeme token lexeme rest) : StopsAt isGap (lexeme ++ rest) := by
  cases h with
  | ident hstart =>
    exact stopsAt_cons.2 (isGap_eq_false_of_isIdentPart (isIdentPart_of_isIdentStart hstart))
  | comment => exact stopsAt_cons.2 (by decide)
  | docComment => exact stopsAt_cons.2 (by decide)
  | lineComment => exact stopsAt_cons.2 (by decide)
  | number hstart =>
    exact stopsAt_cons.2 (isGap_eq_false_of_isIdentPart (isIdentPart_of_isDigit hstart))
  | quoted hquote => exact stopsAt_cons.2 (isGap_eq_false_of_isQuote hquote)
  | openLine hquote => exact stopsAt_cons.2 (isGap_eq_false_of_isQuote hquote)
  | openEnd hquote => exact stopsAt_cons.2 (isGap_eq_false_of_isQuote hquote)
  | punct hgap => exact stopsAt_cons.2 hgap

theorem next?_eq_none_iff {t : Text} : next? t = none ↔ t = [] ∨ IsOpenComment t := by
  constructor
  · intro h
    unfold next? at h
    split at h
    · exact .inl rfl
    · next t => exact .inr ⟨t, rfl, untilClose?_eq_none_iff.1 (Option.map_eq_none_iff.1 h)⟩
    · simp at h
    · split at h
      · simp at h
      split at h
      · simp at h
      split at h <;> simp at h
  · rintro (rfl | ⟨body, rfl, hbody⟩)
    · rfl
    · rw [next?_slash_star, untilClose?_eq_none_iff.2 hbody, Option.map_none]

theorem ofText_of_next?_eq_none {t : Text} (h : next? (t.dropWhile isGap) = none) :
    ofText t = [] := by
  rw [ofText]
  split
  · rfl
  · next h' => simp [h] at h'

theorem ofText_of_next?_eq_some {t rest : Text} {token : Token}
    (h : next? (t.dropWhile isGap) = some (token, rest)) : ofText t = token :: ofText rest := by
  rw [ofText]
  split
  · next h' => simp [h] at h'
  · next h' =>
    obtain ⟨rfl, rfl⟩ := by simpa [h] using h'
    rfl

theorem ofText_gap_append {gap : Text} (h : gap.all isGap) (t : Text) :
    ofText (gap ++ t) = ofText t := by
  have hdrop : (gap ++ t).dropWhile isGap = t.dropWhile isGap :=
    List.dropWhile_append_of_pos (by simpa using h)
  cases hnext : next? (t.dropWhile isGap) with
  | none => rw [ofText_of_next?_eq_none hnext, ofText_of_next?_eq_none (hdrop ▸ hnext)]
  | some found => rw [ofText_of_next?_eq_some hnext, ofText_of_next?_eq_some (hdrop ▸ hnext)]

/-- A lexeme at the start of a text gives its token first, then the tokens of the rest. -/
theorem IsLexeme.ofText_append {token : Token} {lexeme rest : Text}
    (h : IsLexeme token lexeme rest) : ofText (lexeme ++ rest) = token :: ofText rest := by
  apply ofText_of_next?_eq_some
  rw [← next?_append_of_isLexeme h]
  exact congrArg next? (dropWhile_of_stopsAt h.stopsAt_isGap)

theorem ofText_gap_cons {c : Char} (h : isGap c) (t : Text) : ofText (c :: t) = ofText t := by
  have hgap : [c].all isGap := by simpa using h
  exact ofText_gap_append hgap t

/-- The texts that spell an identifier. -/
def isIdent : Text → Bool
  | [] => false
  | c :: name => isIdentStart c && name.all isIdentPart

theorem all_isIdentPart_of_isIdent {name : Text} (h : isIdent name) : name.all isIdentPart := by
  rcases name with _ | ⟨c, name⟩
  · rfl
  · obtain ⟨hstart, hname⟩ := (Bool.and_eq_true _ _).mp h
    rw [List.all_cons, isIdentPart_of_isIdentStart hstart, hname]
    rfl

theorem isIdent_append {name part : Text} (h : isIdent name) (hpart : part.all isIdentPart) :
    isIdent (name ++ part) := by
  rcases name with _ | ⟨c, name⟩
  · exact absurd h (by decide)
  · obtain ⟨hstart, hname⟩ := (Bool.and_eq_true _ _).mp h
    rw [List.cons_append, isIdent, List.all_append, hstart, hname, hpart]
    rfl

theorem ofText_ident_append {name : Text} (h : isIdent name) {t : Text}
    (ht : StopsAt isIdentPart t) : ofText (name ++ t) = .ident name :: ofText t := by
  rcases name with _ | ⟨c, name⟩
  · exact absurd h (by decide)
  · obtain ⟨hstart, hname⟩ := (Bool.and_eq_true _ _).mp h
    exact (IsLexeme.ident hstart hname ht).ofText_append

/-- An identifier in front of a character that cannot be part of one. -/
theorem ofText_ident_append_cons {name : Text} (h : isIdent name) {c : Char}
    (hc : isIdentPart c = false) (t : Text) :
    ofText (name ++ c :: t) = .ident name :: ofText (c :: t) :=
  ofText_ident_append h (stopsAt_cons.2 hc)

theorem ofText_punct_cons {c : Char}
    (h : isGap c = false ∧ isQuote c = false ∧ isIdentPart c = false ∧ c ≠ '/') (t : Text) :
    ofText (c :: t) = .punct c :: ofText t := by
  obtain ⟨hgap, hquote, hpart, hslash⟩ := h
  have hlexeme : IsLexeme (.punct c) [c] t := .punct hgap hquote hpart (absurd · hslash)
  exact hlexeme.ofText_append

theorem ofText_eq_nil {rest : Text} (h : rest = [] ∨ IsOpenComment rest) : ofText rest = [] := by
  apply ofText_of_next?_eq_none
  have hgap : StopsAt isGap rest := by
    rcases h with rfl | ⟨body, rfl, _⟩
    · exact stopsAt_nil _
    · exact stopsAt_cons.2 (by decide)
  rw [dropWhile_of_stopsAt hgap]
  exact next?_eq_none_iff.2 h

/-- Every token of a text has a lexeme. -/
theorem exists_isLexeme_of_mem_ofText {t : Text} {token : Token} (h : token ∈ ofText t) :
    ∃ lexeme rest, IsLexeme token lexeme rest := by
  fun_induction ofText t with
  | case1 => simp at h
  | case2 t first after hnext _ ih =>
    obtain ⟨lexeme, -, hlexeme⟩ := (next?_eq_some_iff (stopsAt_dropWhile _ _)).1 hnext
    rcases List.mem_cons.1 h with rfl | h
    · exact ⟨lexeme, after, hlexeme⟩
    · exact ih h

theorem noClose_of_mem_ofText {t body : Text} {doc : Bool} (h : .comment body doc ∈ ofText t) :
    NoClose body := by
  obtain ⟨lexeme, rest, hlexeme⟩ := exists_isLexeme_of_mem_ofText h
  cases hlexeme with
  | comment hraw => exact hraw
  | docComment hraw => exact (noClose_cons.1 hraw).2

theorem isIdent_of_mem_ofText {t name : Text} (h : .ident name ∈ ofText t) :
    isIdent name := by
  obtain ⟨lexeme, rest, hlexeme⟩ := exists_isLexeme_of_mem_ofText h
  cases hlexeme with
  | ident hstart hname =>
    rw [isIdent, hstart, hname]
    rfl

/-! ## Partitions -/

theorem IsPartition.tokens {t gap rest : Text} {pieces : List Piece}
    (h : IsPartition t pieces gap rest) : pieces.map (·.token) = ofText t := by
  obtain ⟨rfl, hfits, hgap, hrest⟩ := h
  induction pieces with
  | nil =>
    simp only [List.map_nil, List.flatMap_nil, List.nil_append]
    rw [ofText_gap_append hgap, ofText_eq_nil hrest]
  | cons piece pieces ih =>
    obtain ⟨hpiece, hlexeme, hpieces⟩ := hfits
    simp only [List.map_cons, List.flatMap_cons, Piece.text, List.append_assoc]
    rw [ofText_gap_append hpiece, hlexeme.ofText_append, ih hpieces]

theorem exists_isPartition (t : Text) : ∃ pieces gap rest, IsPartition t pieces gap rest := by
  fun_induction ofText t with
  | case1 t h =>
    refine ⟨[], t.takeWhile isGap, t.dropWhile isGap, ?_, trivial, List.all_takeWhile, ?_⟩
    · simp
    · exact next?_eq_none_iff.1 h
  | case2 t token after h _ ih =>
    obtain ⟨pieces, gap, rest, hafter, hfits, hgap, hrest⟩ := ih
    obtain ⟨lexeme, ht, hlexeme⟩ := (next?_eq_some_iff (stopsAt_dropWhile _ _)).1 h
    refine ⟨⟨t.takeWhile isGap, lexeme, token⟩ :: pieces, gap, rest, ?_, ?_, hgap, hrest⟩
    · rw [List.flatMap_cons, List.append_assoc, ← hafter, Piece.text, List.append_assoc, ← ht,
        List.takeWhile_append_dropWhile]
    · exact ⟨List.all_takeWhile, hafter ▸ hlexeme, hfits⟩

/-- The tokens of a text are those of a partition of it.  There is a partition of every text, and
no two partitions of a text spell different tokens. -/
theorem ofText_eq_iff_exists_isPartition {t : Text} {tokens : List Token} :
    ofText t = tokens ↔
      ∃ pieces gap rest, IsPartition t pieces gap rest ∧ pieces.map (·.token) = tokens := by
  constructor
  · rintro rfl
    obtain ⟨pieces, gap, rest, h⟩ := exists_isPartition t
    exact ⟨pieces, gap, rest, h, h.tokens⟩
  · rintro ⟨pieces, gap, rest, h, rfl⟩
    exact h.tokens.symm

end Optable.Token
