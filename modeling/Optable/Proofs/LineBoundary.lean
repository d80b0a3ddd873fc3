import Optable.Proofs.DocBlock
import Optable.Proofs.Opacity
/-!
# Texts below each other

A text and the lines below it are read apart, unless the text ends inside a block comment or inside
a literal that takes the line feed along.  A single letter on the next line tells whether it does.
-/

namespace Optable

namespace Token

open Text (StopsAt stopsAt_cons)

/-- The text ends inside a block comment. -/
def EndsInComment (t : Text) : Prop :=
  ∃ pieces gap rest, IsPartition t pieces gap rest ∧ IsOpenComment rest

/-- A literal that the end of the text cuts off behind a backslash. -/
def IsCutOff (lexeme : Text) : Prop :=
  ∃ quote body, isQuote quote ∧ Quotable quote body ∧ lexeme = quote :: body ++ ['\\']

/-- The text ends inside a literal, behind a backslash that takes the next character along. -/
def EndsBehindBackslash (t : Text) : Prop :=
  ∃ pieces last, IsPartition t (pieces ++ [last]) [] [] ∧ IsCutOff last.lexeme

variable {token : Token} {lexeme tail t : Text} {pieces more : List Piece}

/-! ## A line feed behind the text -/

/-- A lexeme at the end of a text ends there also if a line feed follows. -/
theorem IsLexeme.append_feed (h : IsLexeme token lexeme []) (hcut : ¬ IsCutOff lexeme)
    (u : Text) : IsLexeme token lexeme ('\n' :: u) := by
  cases h with
  | ident hstart hname => exact .ident hstart hname (stopsAt_cons.2 (by decide))
  | comment hraw hstar => exact .comment hraw hstar
  | docComment hraw => exact .docComment hraw
  | lineComment hbody => exact .lineComment hbody (stopsAt_cons.2 (by decide))
  | number hstart hdigits => exact .number hstart hdigits (stopsAt_cons.2 (by decide))
  | quoted hquote hbody => exact .quoted hquote hbody
  | @openEnd quote body _ hquote hbody htail =>
    rcases htail with rfl | rfl
    · rw [List.append_nil]
      exact .openLine hquote hbody
    · exact absurd ⟨quote, body, hquote, hbody, rfl⟩ hcut
  | punct hgap hquote hpart =>
    exact .punct hgap hquote hpart fun _ => ⟨by simp, by simp⟩

theorem fits_append :
    Fits tail (pieces ++ more) ↔
      Fits (more.flatMap Piece.text ++ tail) pieces ∧ Fits tail more := by
  induction pieces with
  | nil => simp [Fits]
  | cons piece pieces ih => simp [Fits, ih, and_assoc]

theorem Piece.text_ne_nil {piece : Piece} (h : IsLexeme piece.token piece.lexeme tail) :
    piece.text ≠ [] :=
  List.append_ne_nil_of_right_ne_nil _ h.ne_nil

/-- Pieces at the end of a text fit there also if a line feed follows. -/
theorem Fits.append_feed (h : Fits [] pieces)
    (hcut : ∀ last ∈ pieces.getLast?, ¬ IsCutOff last.lexeme) (u : Text) :
    Fits ('\n' :: u) pieces := by
  rcases List.eq_nil_or_concat pieces with rfl | ⟨init, last, rfl⟩
  · trivial
  · rw [List.concat_eq_append] at *
    obtain ⟨hinit, hgap, hlexeme, -⟩ := fits_append.1 h
    have hlast : ¬ IsCutOff last.lexeme := hcut last (by simp)
    refine fits_append.2 ⟨?_, hgap, hlexeme.append_feed hlast u, trivial⟩
    have htext : [last].flatMap Piece.text ++ [] ≠ [] := by
      simpa using Piece.text_ne_nil hlexeme
    simpa using hinit.append htext ('\n' :: u)

/-- Behind a text that ends outside of such comments and literals, the next line is read as if it
were the first one. -/
theorem ofText_append_feed_cons (hcomment : ¬ EndsInComment t) (hliteral : ¬ EndsBehindBackslash t)
    (u : Text) : ofText (t ++ '\n' :: u) = ofText t ++ ofText u := by
  obtain ⟨pieces, gap, rest, hpartition⟩ := exists_isPartition t
  obtain rfl : rest = [] := hpartition.rest_tokenless.resolve_right fun hopen =>
    hcomment ⟨pieces, gap, rest, hpartition, hopen⟩
  have hfits : Fits (gap ++ '\n' :: u) pieces := by
    have hbefore : Fits gap pieces := by simpa using hpartition.fits
    by_cases hgap : gap = []
    · subst hgap
      refine hbefore.append_feed (fun last hlast hcut => hliteral ?_) u
      obtain ⟨init, rfl⟩ := List.getLast?_eq_some_iff.1 hlast
      exact ⟨init, last, hpartition, hcut⟩
    · exact hbefore.append hgap _
  calc ofText (t ++ '\n' :: u)
      = ofText (pieces.flatMap Piece.text ++ (gap ++ '\n' :: u)) := by simp [hpartition.text_eq]
    _ = pieces.map (·.token) ++ ofText (gap ++ '\n' :: u) := hfits.ofText_append
    _ = ofText t ++ ofText u := by
      rw [hpartition.tokens, ofText_gap_append hpartition.gap_blank, ofText_gap_cons (by decide)]

/-! ## A letter below the text -/

theorem ofText_append_letter_of_endsInComment (h : EndsInComment t) :
    ofText (t ++ "\nx".toList) = ofText t := by
  obtain ⟨pieces, gap, rest, hpartition, body, rfl, hbody⟩ := h
  have hopen : IsOpenComment ('/' :: '*' :: (body ++ "\nx".toList)) :=
    ⟨_, rfl, (noClose_append_cons (by decide) (by decide)).2 ⟨hbody, by decide⟩⟩
  have hfits : Fits (gap ++ '/' :: '*' :: body ++ "\nx".toList) pieces :=
    hpartition.fits.append (by simp) _
  calc ofText (t ++ "\nx".toList)
      = ofText (pieces.flatMap Piece.text ++ (gap ++ '/' :: '*' :: body ++ "\nx".toList)) := by
        simp [hpartition.text_eq]
    _ = pieces.map (·.token) ++ ofText (gap ++ '/' :: '*' :: body ++ "\nx".toList) :=
        hfits.ofText_append
    _ = ofText t := by
      have hend : ofText (gap ++ '/' :: '*' :: body ++ "\nx".toList) = [] := by
        rw [List.append_assoc, ofText_gap_append hpartition.gap_blank]
        exact ofText_eq_nil (.inr hopen)
      rw [hend, List.append_nil, hpartition.tokens]

/-- A literal that is cut off goes on over the end of the line. -/
theorem IsCutOff.isLexeme_append_letter (h : IsCutOff lexeme) :
    IsLexeme .literal (lexeme ++ "\nx".toList) [] := by
  obtain ⟨quote, body, hquote, hbody, rfl⟩ := h
  have hx : 'x' ≠ quote := by
    rintro rfl
    exact absurd hquote (by decide)
  have hletter : Quotable quote ['x'] := .plain (by decide) (by decide) hx .nil
  have hline : Quotable quote ['\\', '\n', 'x'] := .escaped hletter
  have hopen : IsLexeme .literal (quote :: (body ++ ['\\', '\n', 'x']) ++ []) [] :=
    .openEnd hquote (hbody.append hline) (.inl rfl)
  simpa using hopen

theorem IsLexeme.eq_literal_of_isCutOff (h : IsLexeme token lexeme tail) (hcut : IsCutOff lexeme) :
    token = .literal := by
  obtain ⟨quote, body, hquote, -, rfl⟩ := hcut
  have hnext := next?_append_of_isLexeme h
  rw [List.cons_append, List.cons_append, next?_quote hquote] at hnext
  exact (Prod.mk.inj (Option.some.inj hnext)).1.symm

theorem ofText_append_letter_of_endsBehindBackslash (h : EndsBehindBackslash t) :
    ofText (t ++ "\nx".toList) = ofText t := by
  obtain ⟨pieces, last, ⟨htext, hfits, -, -⟩, hcut⟩ := h
  obtain ⟨hpieces, hgap, hlexeme, -⟩ := fits_append.1 hfits
  have htoken : last.token = .literal := hlexeme.eq_literal_of_isCutOff hcut
  have hbefore : Fits (last.text ++ "\nx".toList) pieces := by
    have hend : Fits last.text pieces := by simpa using hpieces
    exact hend.append (Piece.text_ne_nil hlexeme) _
  have hlonger : ofText (last.text ++ "\nx".toList) = [.literal] := by
    have hread := hcut.isLexeme_append_letter.ofText_append
    rw [List.append_nil, ofText_eq_nil (.inl rfl)] at hread
    rw [Piece.text, List.append_assoc, ofText_gap_append hgap, hread]
  calc ofText (t ++ "\nx".toList)
      = ofText (pieces.flatMap Piece.text ++ (last.text ++ "\nx".toList)) := by simp [htext]
    _ = pieces.map (·.token) ++ [.literal] := by rw [hbefore.ofText_append, hlonger]
    _ = (pieces ++ [last]).map (·.token) := by simp [htoken]
    _ = ofText t := IsPartition.tokens ⟨htext, hfits, rfl, .inl rfl⟩

theorem ofText_letter : ofText ['x'] = [.ident ['x']] := by
  have hident : isIdent ['x'] := rfl
  have hread := ofText_ident_append hident (Text.stopsAt_nil isIdentPart)
  rwa [ofText_eq_nil (.inl rfl)] at hread

/-- The letter is read as a token of its own unless the text ends where it should not. -/
theorem ofText_append_letter_iff :
    ofText (t ++ "\nx".toList) = ofText t ++ [.ident ['x']] ↔
      ¬ EndsInComment t ∧ ¬ EndsBehindBackslash t := by
  constructor
  · intro h
    have hne : ofText (t ++ "\nx".toList) ≠ ofText t := by
      rw [h]
      simp
    exact ⟨fun hend => hne (ofText_append_letter_of_endsInComment hend),
      fun hend => hne (ofText_append_letter_of_endsBehindBackslash hend)⟩
  · rintro ⟨hcomment, hliteral⟩
    have hread := ofText_append_feed_cons hcomment hliteral ['x']
    rwa [ofText_letter] at hread

end Token

open Token (ofText EndsInComment EndsBehindBackslash)

/-- A text and the lines below it are read apart if this is so of a single letter below it: the
tokens and the doc blocks of the whole are those of the text and then those of the lines.  It is
so of the letter exactly if the text ends neither inside a block comment nor inside a literal,
behind a backslash that takes the line feed along. -/
theorem SourceFile.scan_append_feed (a : Text) :
    (ofText (a ++ "\nx".toList) = ofText a ++ [.ident ['x']] →
      ∀ b, ofText (a ++ '\n' :: b) = ofText a ++ ofText b ∧
        ∀ path, blocks ⟨path, a ++ '\n' :: b⟩ = blocks ⟨path, a⟩ ++ blocks ⟨path, b⟩) ∧
    (ofText (a ++ "\nx".toList) = ofText a ++ [.ident ['x']] ↔
      ¬ EndsInComment a ∧ ¬ EndsBehindBackslash a) := by
  refine ⟨fun hletter b => ?_, Token.ofText_append_letter_iff⟩
  obtain ⟨hcomment, hliteral⟩ := Token.ofText_append_letter_iff.1 hletter
  have htokens : ofText (a ++ '\n' :: b) = ofText a ++ ofText b :=
    Token.ofText_append_feed_cons hcomment hliteral b
  refine ⟨htokens, fun path => ?_⟩
  rw [blocks, tokens, htokens, DocBlock.ofTokens_append]
  rfl

/-- A literal that is open at the end of its line.  The backslash at the end is taken along by the
one in front of it. -/
def openLiteral : Text := "s = \"\\\\".toList

/-- The lines below the open literal are read apart from it. -/
theorem SourceFile.scan_openLiteral_append_feed :
    let path : Path := ⟨"t.c".toList⟩
    let below := "/** Q0 OK 1 a : -> */".toList
    ofText (openLiteral ++ "\nx".toList) = ofText openLiteral ++ [.ident ['x']] ∧
      blocks ⟨path, openLiteral ++ '\n' :: below⟩ =
        blocks ⟨path, openLiteral⟩ ++ blocks ⟨path, below⟩ := by
  intro path below
  have hquotable : Token.Quotable '"' ['\\', '\\'] := .escaped .nil
  have hread (u : Text) (h : Token.IsLexeme .literal "\"\\\\".toList u) :
      ofText (openLiteral ++ u) = [.ident ['s'], .punct '=', .literal] ++ ofText u := by
    have hident : Token.isIdent ['s'] := rfl
    have htext : openLiteral ++ u = ['s'] ++ ' ' :: '=' :: ' ' :: ("\"\\\\".toList ++ u) := rfl
    rw [htext, Token.ofText_ident_append_cons hident (by decide), Token.ofText_gap_cons (by decide),
      Token.ofText_punct_cons (by decide), Token.ofText_gap_cons (by decide), h.ofText_append]
    rfl
  have hletter : ofText (openLiteral ++ "\nx".toList) = ofText openLiteral ++ [.ident ['x']] := by
    have hend := hread [] (.openEnd rfl hquotable (.inl rfl))
    rw [List.append_nil, Token.ofText_eq_nil (.inl rfl), List.append_nil] at hend
    have hbelow : ofText "\nx".toList = [.ident ['x']] := by
      rw [← Token.ofText_letter]
      exact Token.ofText_gap_cons (by decide) ['x']
    rw [hend, hread "\nx".toList (.openLine rfl hquotable), hbelow]
  exact ⟨hletter, ((scan_append_feed openLiteral).1 hletter below).2 path⟩

end Optable
