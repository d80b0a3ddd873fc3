import Optable.Proofs.Opacity
/-!
# Layouts

Lexemes that are complete in themselves, written one after the other with gaps between them, are
read as their tokens whatever the gaps are.  A gap only has to be there, and to hold a line feed
where it follows a line comment.
-/

namespace Optable

namespace Token

open Text (StopsAt stopsAt_cons stopsAt_dropWhile)

/-- A lexeme that ends by itself: what follows it after a gap cannot be part of it. -/
inductive Lexeme where
  | ident (name : Text)
  | number (first : Char) (digits : Text)
  | quoted (quote : Char) (body : Text)
  | punct (mark : Char)
  | comment (raw : Text)
  | lineComment (body : Text)

namespace Lexeme

/-- How the lexeme is written. -/
def text : Lexeme → Text
  | .ident name => name
  | .number first digits => first :: digits
  | .quoted quote body => quotedText quote body
  | .punct mark => [mark]
  | .comment raw => commentText raw
  | .lineComment body => '/' :: '/' :: body

/-- The token that the lexeme stands for. -/
def token : Lexeme → Token
  | .ident name => .ident name
  | .number .. => .literal
  | .quoted .. => .literal
  | .punct mark => .punct mark
  | .comment raw => ofComment raw
  | .lineComment _ => .lineComment

def isLineComment : Lexeme → Bool
  | .lineComment _ => true
  | _ => false

/-- Whether the parts of the lexeme are such that it is read as a whole. -/
def WellFormed : Lexeme → Prop
  | .ident name => isIdent name
  | .number first digits => first.isDigit ∧ digits.all isNumberPart
  | .quoted quote body => isQuote quote ∧ Quotable quote body
  | .punct mark => isGap mark = false ∧ isQuote mark = false ∧ isIdentPart mark = false
  | .comment raw => NoClose raw
  | .lineComment body => '\n' ∉ body

instance : ∀ lexeme : Lexeme, Decidable lexeme.WellFormed
  | .ident name => inferInstanceAs (Decidable (isIdent name))
  | .number first digits => inferInstanceAs (Decidable (first.isDigit ∧ digits.all isNumberPart))
  | .quoted quote body => inferInstanceAs (Decidable (isQuote quote ∧ Quotable quote body))
  | .punct mark => inferInstanceAs
      (Decidable (isGap mark = false ∧ isQuote mark = false ∧ isIdentPart mark = false))
  | .comment raw => inferInstanceAs (Decidable (NoClose raw))
  | .lineComment body => inferInstanceAs (Decidable ('\n' ∉ body))

variable {lexeme : Lexeme} {gap rest : Text}

/-! ## One lexeme -/

theorem isIdentPart_eq_false_of_isGap {c : Char} (h : isGap c) : isIdentPart c = false := by
  rcases isGap_iff.1 h with rfl | rfl | rfl | rfl | rfl <;> decide

theorem isNumberPart_eq_false_of_isGap {c : Char} (h : isGap c) : isNumberPart c = false := by
  rcases isGap_iff.1 h with rfl | rfl | rfl | rfl | rfl <;> decide

theorem isLexeme_text (h : lexeme.WellFormed) (hline : lexeme.isLineComment = false)
    (hrest : ∀ c ∈ rest.head?, isGap c) : IsLexeme lexeme.token lexeme.text rest := by
  cases lexeme with
  | ident name =>
    obtain ⟨c, name, rfl⟩ : ∃ c t, name = c :: t := by
      cases name with
      | nil => exact absurd h (by decide)
      | cons c t => exact ⟨c, t, rfl⟩
    obtain ⟨hstart, hname⟩ := (Bool.and_eq_true _ _).mp h
    exact .ident hstart hname fun c hc => isIdentPart_eq_false_of_isGap (hrest c hc)
  | number first digits =>
    exact .number h.1 h.2 fun c hc => isNumberPart_eq_false_of_isGap (hrest c hc)
  | quoted quote body => exact .quoted h.1 h.2
  | punct mark =>
    obtain ⟨hgap, hquote, hpart⟩ := h
    refine .punct hgap hquote hpart fun _ => ⟨?_, ?_⟩ <;>
      exact fun hhead => absurd (hrest _ hhead) (by decide)
  | comment raw => exact isLexeme_ofComment h rest
  | lineComment body => cases hline

/-- A line comment takes a gap up to its first line feed along, and there it ends. -/
theorem ofText_lineComment_append {body : Text} (h : '\n' ∉ body) (hgap : gap.all isGap)
    (hrest : rest = [] ∨ '\n' ∈ gap) :
    ofText ('/' :: '/' :: body ++ (gap ++ rest)) = .lineComment :: ofText rest := by
  let line := gap.takeWhile (· ≠ '\n')
  let below := gap.dropWhile (· ≠ '\n')
  have hsplit : gap = line ++ below := List.takeWhile_append_dropWhile.symm
  have hbody : '\n' ∉ body ++ line := by
    have hline : '\n' ∉ line := fun hmem => by
      simpa using List.all_eq_true.1 List.all_takeWhile _ hmem
    simp [h, hline]
  have hstops : StopsAt (· ≠ '\n') (below ++ rest) := by
    rcases hrest with rfl | hfeed
    · rw [List.append_nil]
      exact stopsAt_dropWhile _ gap
    · have hbelow : '\n' ∈ below := by
        rw [hsplit, List.mem_append] at hfeed
        exact hfeed.resolve_left fun hmem => hbody (List.mem_append_right _ hmem)
      obtain ⟨c, t, hcons⟩ := List.exists_cons_of_ne_nil (List.ne_nil_of_mem hbelow)
      have hc : StopsAt (· ≠ '\n') below := stopsAt_dropWhile _ gap
      rw [hcons] at hc ⊢
      exact stopsAt_cons.2 (stopsAt_cons.1 hc)
  have hblank : below.all isGap := by
    rw [hsplit, List.all_append, Bool.and_eq_true] at hgap
    exact hgap.2
  have hlexeme : IsLexeme .lineComment ('/' :: '/' :: (body ++ line)) (below ++ rest) :=
    .lineComment hbody hstops
  calc ofText ('/' :: '/' :: body ++ (gap ++ rest))
      = ofText ('/' :: '/' :: (body ++ line) ++ (below ++ rest)) := by rw [hsplit]; simp
    _ = .lineComment :: ofText (below ++ rest) := hlexeme.ofText_append
    _ = .lineComment :: ofText rest := by rw [ofText_gap_append hblank]

/-- A lexeme gives its token, and what follows it after a gap is read by itself. -/
theorem ofText_text_append (h : lexeme.WellFormed) (hgap : gap.all isGap)
    (hrest : rest = [] ∨ gap ≠ [] ∧ (lexeme.isLineComment → '\n' ∈ gap)) :
    ofText (lexeme.text ++ (gap ++ rest)) = lexeme.token :: ofText rest := by
  cases hline : lexeme.isLineComment with
  | true =>
    cases lexeme with
    | lineComment body =>
      exact ofText_lineComment_append h hgap (hrest.imp_right fun hgap => hgap.2 rfl)
    | _ => cases hline
  | false =>
    have hhead : ∀ c ∈ (gap ++ rest).head?, isGap c := by
      rcases gap with _ | ⟨c, gap⟩
      · obtain rfl := hrest.resolve_right fun hgap => hgap.1 rfl
        simp
      · simpa using (List.all_eq_true.1 hgap) c
    rw [(isLexeme_text h hline hhead).ofText_append, ofText_gap_append hgap]

end Lexeme

/-! ## Rows of lexemes -/

/-- A lexeme with the gap that follows it. -/
structure Placed where
  lexeme : Lexeme
  gap : Text

/-- The text of lexemes with their gaps, behind a first gap. -/
def layout (lead : Text) (row : List Placed) : Text :=
  lead ++ row.flatMap fun placed => placed.lexeme.text ++ placed.gap

/-- The gaps of a layout keep its lexemes apart.  The first gap and the last one may be empty. -/
structure IsLayout (lead : Text) (row : List Placed) : Prop where
  lead_blank : lead.all isGap
  wellFormed : ∀ placed ∈ row, placed.lexeme.WellFormed ∧ placed.gap.all isGap
  apart : ∀ placed ∈ row.dropLast,
    placed.gap ≠ [] ∧ (placed.lexeme.isLineComment → '\n' ∈ placed.gap)

theorem ofText_layout {lead : Text} {row : List Placed} (h : IsLayout lead row) :
    ofText (layout lead row) = row.map (·.lexeme.token) := by
  obtain ⟨hlead, hwell, hapart⟩ := h
  rw [layout, ofText_gap_append hlead]
  clear hlead
  induction row with
  | nil => exact ofText_eq_nil (.inl rfl)
  | cons placed row ih =>
    obtain ⟨⟨hlexeme, hgap⟩, hrow⟩ := List.forall_mem_cons.1 hwell
    have hrest : row.flatMap (fun placed => placed.lexeme.text ++ placed.gap) = [] ∨
        placed.gap ≠ [] ∧ (placed.lexeme.isLineComment → '\n' ∈ placed.gap) := by
      cases row with
      | nil => exact .inl rfl
      | cons next row => exact .inr (hapart placed List.mem_cons_self)
    have hnext := ih hrow fun p hp => hapart p (by
      cases row with
      | nil => cases hp
      | cons next row => exact List.mem_cons_of_mem _ hp)
    rw [List.flatMap_cons, List.append_assoc, Lexeme.ofText_text_append hlexeme hgap hrest, hnext,
      List.map_cons]

end Token

open Token (Lexeme Placed IsLayout layout ofText ofText_layout)

/-- Lexemes in any layout are read as their tokens.  Therefore two layouts of the same lexemes hold
the same declarations and doc blocks. -/
theorem SourceFile.scan_layout {lead : Text} {row : List Placed} (h : IsLayout lead row) :
    ofText (layout lead row) = row.map (·.lexeme.token) ∧
      ∀ lead' row', IsLayout lead' row' → row'.map (·.lexeme) = row.map (·.lexeme) →
        ∀ path kind,
          declarations ⟨path, layout lead' row'⟩ kind = declarations ⟨path, layout lead row⟩ kind ∧
          blocks ⟨path, layout lead' row'⟩ = blocks ⟨path, layout lead row⟩ := by
  refine ⟨ofText_layout h, fun lead' row' h' hsame path kind => ?_⟩
  have hmap (row : List Placed) :
      row.map (·.lexeme.token) = (row.map (·.lexeme)).map Lexeme.token := by
    rw [List.map_map]
    rfl
  have htokens : ofText (layout lead' row') = ofText (layout lead row) := by
    rw [ofText_layout h, ofText_layout h', hmap, hmap, hsame]
  constructor
  · cases kind with
    | grouped => exact congrArg (Declaration.ofTokens path) htokens
    | individual => rfl
  · exact congrArg (DocBlock.ofTokens path) htokens

/-- A function with a division, a literal and remarks in it, on one line but for the end of a line
comment, and the same on many lines. -/
theorem SourceFile.scan_layout_halve :
    let lexemes : List Lexeme := [.comment "* [NATIVE] ".toList, .ident "void".toList,
      .ident "halve_".toList, .punct '(', .ident "pEnv".toList, .ident "env".toList, .punct ')',
      .lineComment "\" / 2".toList, .punct '/', .number '2' ".5e".toList,
      .quoted '"' "\\\"/*".toList]
    let flat := lexemes.map fun lexeme =>
      Placed.mk lexeme (if lexeme.isLineComment then "\r\n".toList else [' '])
    let tall := lexemes.map fun lexeme => Placed.mk lexeme "\n\t".toList
    let path : Path := ⟨"t.c".toList⟩
    let halve : Declaration := ⟨"halve_".toList, .function, true, path⟩
    IsLayout [] flat ∧ IsLayout ['\x0C'] tall ∧
      declarations ⟨path, layout ['\x0C'] tall⟩ .grouped = [halve] ∧
      declarations ⟨path, layout [] flat⟩ .grouped = [halve] := by
  intro lexemes flat tall path halve
  have hflat : IsLayout [] flat := ⟨by decide, by decide, by decide⟩
  have htall : IsLayout ['\x0C'] tall := ⟨by decide, by decide, by decide⟩
  obtain ⟨htokens, hsame⟩ := scan_layout hflat
  have hdeclared : declarations ⟨path, layout [] flat⟩ .grouped = [halve] := by
    rw [declarations, tokens, htokens]
    decide
  refine ⟨hflat, htall, ?_, hdeclared⟩
  rw [← hdeclared]
  exact (hsame _ tall htall rfl path .grouped).1

end Optable
