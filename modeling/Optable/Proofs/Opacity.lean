import Optable.Assembly
import Optable.Proofs.Partition
/-!
# What comments and literals hide

Of a comment, declarations see only whether it holds the native marker, and of a literal nothing is
seen at all.  Reading starts afresh behind a line feed that belongs to no token, so what stands in
one comment or literal cannot reach what stands before it or after it.
-/

namespace Optable

open Token (NoClose Quotable IsPartition IsOpenComment Fits Piece ofText isQuote)

/-! ## What declarations see of a token -/

namespace Declaration

/-- A token as declarations see it: a comment keeps nothing but the native marker. -/
def view : Token → Token
  | .comment body _ => .comment (if Text.contains nativeMarker body then nativeMarker else []) false
  | token => token

variable {origin : Path} {before : Option Token} {token : Token}

theorem view_eq_ident_iff {name : Text} : view token = .ident name ↔ token = .ident name := by
  cases token <;> simp [view]

theorem view_eq_punct_iff {mark : Char} : view token = .punct mark ↔ token = .punct mark := by
  cases token <;> simp [view]

theorem marksNative_view (token : Token) : marksNative (view token) = marksNative token := by
  cases token with
  | comment body doc =>
    by_cases h : Text.contains nativeMarker body
    · simp only [view, marksNative, h, if_true]
      decide
    · simp only [view, marksNative, h]
      decide
  | _ => rfl

theorem functionName?_map_view (tokens : List Token) :
    functionName? (tokens.map view) = functionName? tokens := by
  unfold functionName?
  split
  · next hview =>
    simp only [List.map_eq_cons_iff, view_eq_ident_iff, view_eq_punct_iff] at hview
    obtain ⟨_, _, rfl, rfl, _, _, rfl, rfl, _, _, rfl, rfl, _, _, rfl, rfl, _, _, rfl, rfl, _, _,
      rfl, rfl, _⟩ := hview
    rfl
  · next hview =>
    split
    · exact absurd rfl (hview _ _ _ _ _)
    · rfl

theorem macroArgument?_map_view (tokens : List Token) :
    macroArgument? (tokens.map view) = macroArgument? tokens := by
  unfold macroArgument?
  split
  · next hview =>
    simp only [List.map_eq_cons_iff, view_eq_ident_iff, view_eq_punct_iff] at hview
    obtain ⟨_, _, rfl, rfl, _, _, rfl, rfl, _, _, rfl, rfl, _, _, rfl, rfl, _⟩ := hview
    rfl
  · next hview =>
    split
    · exact absurd rfl (hview _ _ _)
    · rfl

theorem after_map_view (tokens : List Token) :
    after origin (before.map view) (tokens.map view) = after origin before tokens := by
  induction tokens generalizing before with
  | nil => rfl
  | cons token tokens ih =>
    have hbefore : (before.map view).any marksNative = before.any marksNative := by
      cases before with
      | none => rfl
      | some token => exact marksNative_view token
    have hnext : next? origin (before.map view) ((token :: tokens).map view) =
        next? origin before (token :: tokens) := by
      rw [next?, next?, functionName?_map_view, macroArgument?_map_view, hbefore]
    have hrest : after origin (some (view token)) (tokens.map view) =
        after origin (some token) tokens := @ih (some token)
    rw [List.map_cons] at hnext ⊢
    rw [after, after, hnext]
    exact congrArg _ hrest

/-- Tokens that look the same to declarations declare the same. -/
theorem ofTokens_eq_of_map_view_eq {s t : List Token} (h : s.map view = t.map view) :
    ofTokens origin s = ofTokens origin t := by
  have hview (tokens : List Token) :
      after origin none (tokens.map view) = after origin none tokens :=
    @after_map_view origin none tokens
  rw [ofTokens, ofTokens, ← hview s, ← hview t, h]

/-- The star of a doc comment is no part of the marker. -/
theorem view_ofComment (raw : Text) :
    view (Token.ofComment raw) =
      .comment (if Text.contains nativeMarker raw then nativeMarker else []) false := by
  unfold Token.ofComment
  split
  · next body =>
    have hstar : Text.contains nativeMarker ('*' :: body) = Text.contains nativeMarker body := rfl
    rw [view, hstar]
  · rfl

end Declaration
namespace Token

/-! ## What may stand inside a literal -/

/-- Whether a text may stand inside a literal. -/
def isQuotable (quote : Char) : Text → Bool
  | [] => true
  | '\\' :: _ :: t => isQuotable quote t
  | c :: t => c ≠ '\\' && c ≠ '\n' && c ≠ quote && isQuotable quote t

theorem isQuotable_iff {quote : Char} {t : Text} : isQuotable quote t ↔ Quotable quote t := by
  constructor
  · intro h
    fun_induction isQuotable quote t with
    | case1 => exact .nil
    | case2 _ t ih => exact .escaped (ih h)
    | case3 c t _ ih =>
      simp only [Bool.and_eq_true, decide_eq_true_eq] at h
      obtain ⟨⟨⟨hbackslash, hfeed⟩, hquote⟩, ht⟩ := h
      exact .plain hbackslash hfeed hquote (ih ht)
  · intro h
    induction h with
    | nil => rfl
    | plain hbackslash hfeed hquote _ ih =>
      rw [isQuotable]
      · simp [hbackslash, hfeed, hquote, ih]
      · exact fun _ _ hc _ => hbackslash hc
    | escaped _ ih => exact ih

instance (quote : Char) (t : Text) : Decidable (Quotable quote t) :=
  decidable_of_iff _ isQuotable_iff

/-! ## Reading afresh -/

/-- A block comment with the given text between its delimiters. -/
def commentText (raw : Text) : Text := '/' :: '*' :: raw ++ ['*', '/']

/-- A literal with the given text between its quotes. -/
def quotedText (quote : Char) (body : Text) : Text := quote :: body ++ [quote]

/-- The last piece of a text is a literal that takes the line feed at the end of the text along. -/
def TakesLastFeed (pieces : List Piece) (gap : Text) : Prop :=
  gap = [] ∧ ∃ last ∈ pieces.getLast?, last.token = .literal ∧ last.lexeme.getLast? = some '\n'

/-- A text behind which reading starts afresh: it is empty or ends in a line feed, all its comments
are closed, and no literal takes that line feed along. -/
structure Standalone (t : Text) : Prop where
  feed : t = [] ∨ t.getLast? = some '\n'
  closed : ∃ pieces gap rest, IsPartition t pieces gap rest ∧ ¬ IsOpenComment rest ∧
    ¬ TakesLastFeed pieces gap

/-- A lexeme in front of some text is one in front of more text. -/
theorem IsLexeme.append {token : Token} {lexeme rest : Text} (h : IsLexeme token lexeme rest)
    (hne : rest ≠ []) (u : Text) : IsLexeme token lexeme (rest ++ u) := by
  obtain ⟨c, rest, rfl⟩ := List.exists_cons_of_ne_nil hne
  have hstops {p : Char → Bool} (hrest : Text.StopsAt p (c :: rest)) :
      Text.StopsAt p (c :: rest ++ u) := Text.stopsAt_cons.2 (Text.stopsAt_cons.1 hrest)
  cases h with
  | ident hstart hname hrest => exact .ident hstart hname (hstops hrest)
  | comment hraw hstar => exact .comment hraw hstar
  | docComment hraw => exact .docComment hraw
  | lineComment hbody hrest => exact .lineComment hbody (hstops hrest)
  | number hstart hdigits hrest => exact .number hstart hdigits (hstops hrest)
  | quoted hquote hbody => exact .quoted hquote hbody
  | openLine hquote hbody => exact .openLine hquote hbody
  | punct hgap hquote hpart hslash => exact .punct hgap hquote hpart hslash

theorem Fits.append {tail : Text} {pieces : List Piece} (h : Fits tail pieces) (hne : tail ≠ [])
    (u : Text) : Fits (tail ++ u) pieces := by
  induction pieces with
  | nil => trivial
  | cons piece pieces ih =>
    obtain ⟨hgap, hlexeme, hpieces⟩ := h
    have hrest : pieces.flatMap Piece.text ++ tail ≠ [] := List.append_ne_nil_of_right_ne_nil _ hne
    refine ⟨hgap, ?_, ih hpieces⟩
    rw [← List.append_assoc]
    exact hlexeme.append hrest u

theorem Fits.ofText_append {tail : Text} {pieces : List Piece} (h : Fits tail pieces) :
    ofText (pieces.flatMap Piece.text ++ tail) = pieces.map (·.token) ++ ofText tail := by
  induction pieces with
  | nil => rfl
  | cons piece pieces ih =>
    obtain ⟨hgap, hlexeme, hpieces⟩ := h
    simp only [List.map_cons, List.flatMap_cons, Piece.text, List.append_assoc]
    rw [ofText_gap_append hgap, hlexeme.ofText_append, ih hpieces]
    rfl

/-- No lexeme but that of a literal ends in a line feed. -/
theorem IsLexeme.eq_literal {token : Token} {lexeme rest : Text} (h : IsLexeme token lexeme rest)
    (hfeed : lexeme.getLast? = some '\n') : token = .literal := by
  have hmem : '\n' ∈ lexeme := List.mem_of_getLast? hfeed
  cases h with
  | ident hstart hname =>
    have hpart : isIdentPart '\n' := by
      rcases List.mem_cons.1 hmem with h | h
      · exact h ▸ isIdentPart_of_isIdentStart hstart
      · exact List.all_eq_true.1 hname _ h
    exact absurd hpart (by decide)
  | comment | docComment =>
    rw [List.getLast?_append] at hfeed
    have hslash : some '/' = some '\n' := hfeed
    exact absurd hslash (by decide)
  | lineComment hbody =>
    simp only [List.mem_cons, Char.reduceEq, false_or] at hmem
    exact absurd hmem hbody
  | number | quoted | openLine | openEnd => rfl
  | punct hgap =>
    obtain rfl := List.mem_singleton.1 hmem
    exact absurd hgap (by decide)

theorem Fits.isLexeme_last {tail : Text} {pieces : List Piece} {last : Piece}
    (h : Fits tail (pieces ++ [last])) : IsLexeme last.token last.lexeme tail := by
  induction pieces with
  | nil => exact h.2.1
  | cons piece pieces ih => exact ih h.2.2

/-- The line feed at the end of such a text belongs to no token. -/
theorem Standalone.exists_isPartition {t : Text} (h : Standalone t) (hne : t ≠ []) :
    ∃ pieces gap, IsPartition t pieces gap [] ∧ gap ≠ [] := by
  obtain ⟨pieces, gap, rest, hpartition, hopen, htakes⟩ := h.closed
  obtain rfl : rest = [] := hpartition.rest_tokenless.resolve_right hopen
  refine ⟨pieces, gap, hpartition, ?_⟩
  rintro rfl
  obtain ⟨htext, hfits, -, -⟩ := hpartition
  rcases List.eq_nil_or_concat pieces with rfl | ⟨init, last, rfl⟩
  · exact hne htext
  · rw [List.concat_eq_append] at *
    have hlexeme : IsLexeme last.token last.lexeme [] := hfits.isLexeme_last
    have hend : t.getLast? = last.lexeme.getLast? := by
      rw [htext]
      simp [Piece.text, List.getLast?_append, List.getLast?_eq_some_getLast hlexeme.ne_nil]
    have hfeed : last.lexeme.getLast? = some '\n' := hend ▸ h.feed.resolve_left hne
    exact htakes ⟨rfl, last, by simp, hlexeme.eq_literal hfeed, hfeed⟩

/-- The tokens of more text are read as if the text before it were not there. -/
theorem Standalone.ofText_append {t : Text} (h : Standalone t) (u : Text) :
    ofText (t ++ u) = ofText t ++ ofText u := by
  by_cases hne : t = []
  · rw [hne, ofText_eq_nil (.inl rfl)]
    rfl
  · obtain ⟨pieces, gap, hpartition, hgap⟩ := h.exists_isPartition hne
    have hfits : Fits (gap ++ [] ++ u) pieces := hpartition.fits.append (by simpa using hgap) u
    rw [List.append_nil] at hfits
    calc ofText (t ++ u)
        = ofText (pieces.flatMap Piece.text ++ (gap ++ u)) := by simp [hpartition.text_eq]
      _ = pieces.map (·.token) ++ ofText (gap ++ u) := hfits.ofText_append
      _ = ofText t ++ ofText u := by
        rw [hpartition.tokens, ofText_gap_append hpartition.gap_blank]

theorem Standalone.ofText_comment {t : Text} (h : Standalone t) {raw : Text} (hraw : NoClose raw)
    (u : Text) :
    ofText (t ++ commentText raw ++ u) = ofText t ++ ofComment raw :: ofText u := by
  have hlexeme : IsLexeme (ofComment raw) (commentText raw) u := isLexeme_ofComment hraw u
  rw [List.append_assoc, h.ofText_append, hlexeme.ofText_append]

theorem Standalone.ofText_quoted {t : Text} (h : Standalone t) {quote : Char} {body : Text}
    (hquote : isQuote quote) (hbody : Quotable quote body) (u : Text) :
    ofText (t ++ quotedText quote body ++ u) = ofText t ++ .literal :: ofText u := by
  have hlexeme : IsLexeme .literal (quotedText quote body) u := .quoted hquote hbody
  rw [List.append_assoc, h.ofText_append, hlexeme.ofText_append]

end Token

theorem DocBlock.ofTokens_cons (origin : Path) (token : Token) (tokens : List Token) :
    ofTokens origin (token :: tokens) =
      (ofToken? origin token).toList ++ ofTokens origin tokens := by
  rw [ofTokens, ofTokens, List.filterMap_cons]
  cases ofToken? origin token <;> rfl

namespace SourceFile

variable {path : Path} {a : Text}

theorem declarations_comment_eq (ha : Token.Standalone a) (b : Text) {c c' : Text}
    (hc : NoClose c) (hc' : NoClose c')
    (hmarker : Text.contains Declaration.nativeMarker c =
      Text.contains Declaration.nativeMarker c') :
    declarations ⟨path, a ++ Token.commentText c ++ b⟩ .grouped =
      declarations ⟨path, a ++ Token.commentText c' ++ b⟩ .grouped := by
  apply Declaration.ofTokens_eq_of_map_view_eq
  rw [tokens, tokens, ha.ofText_comment hc, ha.ofText_comment hc']
  simp only [List.map_append, List.map_cons, Declaration.view_ofComment, hmarker]

theorem blocks_comment_eq (ha : Token.Standalone a) (b : Text) {c : Text} (hc : NoClose c) :
    blocks ⟨path, a ++ Token.commentText c ++ b⟩ =
      DocBlock.ofTokens path (ofText a) ++
        (DocBlock.ofToken? path (Token.ofComment c)).toList ++
        DocBlock.ofTokens path (ofText b) := by
  rw [List.append_assoc (DocBlock.ofTokens path (ofText a)), ← DocBlock.ofTokens_cons, blocks,
    tokens, ha.ofText_comment hc]
  exact List.filterMap_append

/-- What is found in a file does not depend on the text inside a comment or a literal.  Two texts
of a comment, if both or neither hold the native marker, leave the same declarations, and all
doc blocks but that of the comment itself.  Two texts of a literal leave everything the same. -/
theorem scan_opaque (ha : Token.Standalone a) (b : Text) (path : Path) :
    (∀ c c', NoClose c → NoClose c' →
      Text.contains Declaration.nativeMarker c = Text.contains Declaration.nativeMarker c' →
      declarations ⟨path, a ++ Token.commentText c ++ b⟩ .grouped =
        declarations ⟨path, a ++ Token.commentText c' ++ b⟩ .grouped) ∧
    (∃ before after, ∀ c, NoClose c →
      blocks ⟨path, a ++ Token.commentText c ++ b⟩ =
        before ++ (DocBlock.ofToken? path (Token.ofComment c)).toList ++ after) ∧
    ∀ quote s s', isQuote quote → Quotable quote s → Quotable quote s' →
      declarations ⟨path, a ++ Token.quotedText quote s ++ b⟩ .grouped =
          declarations ⟨path, a ++ Token.quotedText quote s' ++ b⟩ .grouped ∧
        blocks ⟨path, a ++ Token.quotedText quote s ++ b⟩ =
          blocks ⟨path, a ++ Token.quotedText quote s' ++ b⟩ := by
  refine ⟨fun c c' hc hc' => declarations_comment_eq ha b hc hc', ?_, ?_⟩
  · exact ⟨_, _, fun c hc => blocks_comment_eq ha b hc⟩
  intro quote s s' hquote hs hs'
  have htokens : tokens ⟨path, a ++ Token.quotedText quote s ++ b⟩ =
      tokens ⟨path, a ++ Token.quotedText quote s' ++ b⟩ := by
    rw [tokens, tokens, ha.ofText_quoted hquote hs, ha.ofText_quoted hquote hs']
  constructor
  · exact congrArg (Declaration.ofTokens path) htokens
  · exact congrArg (DocBlock.ofTokens path) htokens

/-- A line with a quoted quote in it. -/
def quoteLine : Text := "'\"';\n".toList

theorem standalone_quoteLine : Token.Standalone quoteLine := by
  have hliteral : Token.IsLexeme .literal (Token.quotedText '\'' ['"']) ";\n".toList :=
    .quoted (by decide) (.plain (by decide) (by decide) (by decide) .nil)
  have hpunct : Token.IsLexeme (.punct ';') [';'] ['\n'] :=
    .punct (by decide) (by decide) (by decide) (by decide)
  have hpartition : IsPartition quoteLine
      [⟨[], Token.quotedText '\'' ['"'], .literal⟩, ⟨[], [';'], .punct ';'⟩] ['\n'] [] :=
    ⟨rfl, ⟨rfl, hliteral, rfl, hpunct, trivial⟩, rfl, .inl rfl⟩
  refine ⟨.inr rfl, _, _, _, hpartition, ?_, ?_⟩
  · rintro ⟨body, h, -⟩
    simp at h
  · rintro ⟨h, -⟩
    simp at h

/-- Behind that line, a definition in a comment and a doc block in a comment declare alike, and so
do a doc block and a definition in a literal. -/
theorem scan_opaque_quoteLine :
    let b := "\nvoid b_(pEnv env);".toList
    let path : Path := ⟨"t.c".toList⟩
    let definition := "void a_(pEnv env) \x7b \x7d".toList
    let doc := "* Q0 OK 1 a : ".toList
    let escaped := "/** Q0 OK 1 a : \\\" */".toList
    Token.Standalone quoteLine ∧
      declarations ⟨path, quoteLine ++ Token.commentText definition ++ b⟩ .grouped =
        declarations ⟨path, quoteLine ++ Token.commentText doc ++ b⟩ .grouped ∧
      blocks ⟨path, quoteLine ++ Token.quotedText '"' definition ++ b⟩ =
        blocks ⟨path, quoteLine ++ Token.quotedText '"' escaped ++ b⟩ := by
  intro b path definition doc escaped
  obtain ⟨hcomment, -, hquoted⟩ := scan_opaque standalone_quoteLine b path
  refine ⟨standalone_quoteLine, hcomment _ _ (by decide) (by decide) (by decide), ?_⟩
  exact (hquoted '"' _ _ (by decide) (by decide) (by decide)).2

end SourceFile
end Optable
