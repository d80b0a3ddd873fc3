import Mathlib.Data.List.Basic
import Optable.Proofs.DocBlock
import Optable.Proofs.Opacity
/-!
# Line endings

A carriage return in front of each line feed of a text changes no token except the bodies of
comments, and of these neither the marker nor the doc block.  One place of a text is an exception:
a line feed that a literal takes along behind a backslash.  The backslash takes the carriage return
instead, and the literal ends.
-/

namespace Optable

open Text (StopsAt stopsAt_nil)
open Token (NoClose Quotable IsPartition IsOpenComment IsLexeme ofText isGap isIdentPart)

namespace Text

/-- A character, with a carriage return in front if it is a line feed. -/
def crlfChar : Char → Text
  | '\n' => ['\r', '\n']
  | c => [c]

/-- The text with a carriage return in front of each line feed. -/
def crlf (t : Text) : Text := t.flatMap crlfChar

variable {c : Char} {s t : Text}

theorem crlf_nil : crlf [] = [] := rfl

theorem crlf_append (s t : Text) : crlf (s ++ t) = crlf s ++ crlf t := List.flatMap_append

theorem crlf_feed_cons (t : Text) : crlf ('\n' :: t) = '\r' :: '\n' :: crlf t := rfl

theorem crlf_cons (hc : c ≠ '\n') (t : Text) : crlf (c :: t) = c :: crlf t := by
  have hchar : crlfChar c = [c] := by
    unfold crlfChar
    split
    · exact absurd rfl hc
    · rfl
  rw [crlf, List.flatMap_cons, hchar]
  rfl

theorem crlf_of_notMem (h : '\n' ∉ t) : crlf t = t := by
  induction t with
  | nil => rfl
  | cons c t ih =>
    obtain ⟨hc, ht⟩ := not_or.1 (mt List.mem_cons.2 h)
    rw [crlf_cons (Ne.symm hc), ih ht]

/-- A text starts as before, or with a carriage return. -/
theorem head?_crlf (t : Text) : (crlf t).head? = t.head? ∨ (crlf t).head? = some '\r' := by
  rcases t with _ | ⟨c, t⟩
  · exact .inl rfl
  · by_cases hc : c = '\n'
    · subst hc
      exact .inr rfl
    · rw [crlf_cons hc]
      exact .inl rfl

theorem StopsAt.crlf {p : Char → Bool} (h : StopsAt p t) (hp : p '\r' = false) :
    StopsAt p (crlf t) := by
  intro c hc
  rcases head?_crlf t with hhead | hhead
  · exact h c (hhead ▸ hc)
  · obtain rfl : '\r' = c := Option.some.inj (hhead.symm.trans hc)
    exact hp

theorem head?_crlf_ne (hc : c ≠ '\r') (h : t.head? ≠ some c) : (crlf t).head? ≠ some c := by
  rcases head?_crlf t with hhead | hhead
  · rwa [hhead]
  · rw [hhead]
    exact fun heq => hc (Option.some.inj heq).symm

/-! ## Parts without line endings -/

variable {p : Text}

theorem isPrefix_crlf (hfeed : '\n' ∉ p) (hreturn : '\r' ∉ p) : p <+: crlf t ↔ p <+: t := by
  induction p generalizing t with
  | nil => simp
  | cons d p ih =>
    obtain ⟨hdfeed, hfeed⟩ := not_or.1 (mt List.mem_cons.2 hfeed)
    obtain ⟨hdreturn, hreturn⟩ := not_or.1 (mt List.mem_cons.2 hreturn)
    rcases t with _ | ⟨c, t⟩
    · rw [crlf_nil]
    · by_cases hc : c = '\n'
      · subst hc
        rw [crlf_feed_cons, List.cons_prefix_cons, List.cons_prefix_cons]
        exact iff_of_false (fun h => hdreturn h.1.symm) fun h => hdfeed h.1.symm
      · rw [crlf_cons hc, List.cons_prefix_cons, List.cons_prefix_cons, ih hfeed hreturn]

theorem isInfix_crlf (hne : p ≠ []) (hfeed : '\n' ∉ p) (hreturn : '\r' ∉ p) :
    p <:+: crlf t ↔ p <:+: t := by
  induction t with
  | nil => rw [crlf_nil]
  | cons c t ih =>
    have hnot {d : Char} (hd : d ∉ p) (u : Text) : ¬ p <+: d :: u := by
      obtain ⟨e, p, rfl⟩ := List.exists_cons_of_ne_nil hne
      intro h
      rw [List.cons_prefix_cons] at h
      exact hd (h.1 ▸ List.mem_cons_self)
    by_cases hc : c = '\n'
    · subst hc
      rw [crlf_feed_cons, List.infix_cons_iff, List.infix_cons_iff, List.infix_cons_iff, ih]
      simp [hnot hfeed, hnot hreturn]
    · rw [List.infix_cons_iff, ← isPrefix_crlf hfeed hreturn, crlf_cons hc, List.infix_cons_iff, ih]

theorem contains_crlf (hne : p ≠ []) (hfeed : '\n' ∉ p) (hreturn : '\r' ∉ p) :
    contains p (crlf t) = contains p t := by
  rw [Bool.eq_iff_iff, contains_iff, contains_iff, isInfix_crlf hne hfeed hreturn]

/-! ## Lines -/

/-- The lines differ by carriage returns at their ends. -/
theorem map_trimEnd_lines_crlf (t : Text) :
    (lines (crlf t)).map trimEnd = (lines t).map trimEnd := by
  by_cases h : '\n' ∈ t
  · obtain ⟨line, rest, rfl, hline⟩ := List.eq_append_cons_of_mem h
    have hreturn : '\n' ∉ line ++ ['\r'] := by simpa using hline
    have hcrlf : crlf (line ++ '\n' :: rest) = (line ++ ['\r']) ++ '\n' :: crlf rest := by
      rw [crlf_append, crlf_feed_cons, crlf_of_notMem hline, List.append_assoc]
      rfl
    have hend : trimEnd (line ++ ['\r']) = trimEnd line := trimEnd_append_blank (by decide) line
    have ih := map_trimEnd_lines_crlf rest
    rw [hcrlf, lines_append_cons, lines_append_cons, lines_of_notMem hreturn,
      lines_of_notMem hline, List.map_append, List.map_append, ih, List.map_singleton, hend,
      List.map_singleton]
  · rw [crlf_of_notMem h]
termination_by t.length
decreasing_by
  rw [‹t = _›]
  simp only [List.length_append, List.length_cons]
  omega

end Text

/-! ## Tokens -/

namespace Token

/-- The token of a text with carriage returns: of a comment, the body has them too. -/
def crlf : Token → Token
  | .comment body doc => .comment (Text.crlf body) doc
  | token => token

/-- No literal of the text takes a line feed along. -/
def TakesNoFeed (t : Text) : Prop :=
  ∃ pieces gap rest, IsPartition t pieces gap rest ∧
    ∀ piece ∈ pieces, piece.token = .literal → '\n' ∉ piece.lexeme

theorem noClose_crlf {t : Text} : NoClose (Text.crlf t) ↔ NoClose t := by
  have hclose := Text.isInfix_crlf (p := ['*', '/']) (t := t) (by decide) (by decide) (by decide)
  exact not_congr hclose

theorem all_isGap_crlf {gap : Text} (h : gap.all isGap) : (Text.crlf gap).all isGap := by
  induction gap with
  | nil => rfl
  | cons c gap ih =>
    obtain ⟨hc, hgap⟩ := (Bool.and_eq_true _ _).mp h
    by_cases hfeed : c = '\n'
    · subst hfeed
      exact ih hgap
    · rw [Text.crlf_cons hfeed, List.all_cons, hc, ih hgap]
      rfl

/-- A carriage return in front of a line feed can stand inside an open literal. -/
theorem Quotable.append_return {quote : Char} {body : Text} (hquote : isQuote quote)
    (hbody : Quotable quote body) : Quotable quote (body ++ ['\r']) := by
  refine hbody.append (.plain (by decide) (by decide) ?_ .nil)
  rintro rfl
  exact absurd hquote (by decide)

theorem ofText_return_cons (t : Text) : ofText ('\r' :: t) = ofText t :=
  ofText_gap_cons (by decide) t

theorem feed_notMem_of_all {p : Char → Bool} {t : Text} (hp : p '\n' = false) (h : t.all p) :
    '\n' ∉ t := by
  intro hfeed
  rw [List.all_eq_true.1 h _ hfeed] at hp
  exact absurd hp (by decide)

/-- What ends in front of a line feed ends in front of it behind the carriage return. -/
theorem ofText_crlf_of_stopsAt {token : Token} {lexeme rest : Text}
    (hrest : StopsAt (· ≠ '\n') rest) (hopen : rest = [] → IsLexeme token lexeme [])
    (hclosed : ∀ t, IsLexeme token (lexeme ++ ['\r']) ('\n' :: t)) :
    ofText (lexeme ++ Text.crlf rest) = token :: ofText (Text.crlf rest) := by
  rcases rest with _ | ⟨c, rest⟩
  · rw [Text.crlf_nil, (hopen rfl).ofText_append]
  · obtain rfl : c = '\n' := by simpa using Text.stopsAt_cons.1 hrest
    rw [Text.crlf_feed_cons, ofText_return_cons, ← (hclosed _).ofText_append, List.append_assoc]
    rfl

/-- A lexeme keeps its token where it and what follows get carriage returns. -/
theorem IsLexeme.ofText_crlf {token : Token} {lexeme rest : Text}
    (h : IsLexeme token lexeme rest) (hfeed : token = .literal → '\n' ∉ lexeme) :
    ofText (Text.crlf (lexeme ++ rest)) = token.crlf :: ofText (Text.crlf rest) := by
  rw [Text.crlf_append]
  cases h with
  | @ident c name _ hstart hname hrest =>
    have hparts : (c :: name).all isIdentPart := by
      rw [List.all_cons, isIdentPart_of_isIdentStart hstart, hname]
      rfl
    have hlexeme : IsLexeme (.ident (c :: name)) (c :: name) (Text.crlf rest) :=
      .ident hstart hname (hrest.crlf (by decide))
    rw [Text.crlf_of_notMem (feed_notMem_of_all (by decide) hparts)]
    exact hlexeme.ofText_append
  | @comment raw _ hraw hstar =>
    have hlexeme : IsLexeme (.comment (Text.crlf raw) false)
        ('/' :: '*' :: Text.crlf raw ++ ['*', '/']) (Text.crlf rest) :=
      .comment (noClose_crlf.2 hraw) (Text.head?_crlf_ne (by decide) hstar)
    rw [Text.crlf_append]
    exact hlexeme.ofText_append
  | @docComment body _ hraw =>
    have hlexeme : IsLexeme (.comment (Text.crlf body) true)
        ('/' :: '*' :: ('*' :: Text.crlf body) ++ ['*', '/']) (Text.crlf rest) :=
      .docComment (noClose_crlf.2 hraw)
    rw [Text.crlf_append]
    exact hlexeme.ofText_append
  | @lineComment body _ hbody hrest =>
    have hlexeme : '\n' ∉ '/' :: '/' :: body := by simpa using hbody
    have hreturn : '\n' ∉ body ++ ['\r'] := by simpa using hbody
    rw [Text.crlf_of_notMem hlexeme]
    refine ofText_crlf_of_stopsAt hrest (fun _ => .lineComment hbody (stopsAt_nil _)) fun t => ?_
    exact .lineComment hreturn (by simp)
  | @number c digits _ hstart hdigits hrest =>
    have hlexeme : IsLexeme .literal (c :: digits) (Text.crlf rest) :=
      .number hstart hdigits (hrest.crlf (by decide))
    rw [Text.crlf_of_notMem (hfeed rfl)]
    exact hlexeme.ofText_append
  | quoted hquote hbody =>
    rw [Text.crlf_of_notMem (hfeed rfl)]
    exact (IsLexeme.quoted hquote hbody).ofText_append
  | openLine hquote hbody =>
    rw [Text.crlf_of_notMem (hfeed rfl)]
    refine ofText_crlf_of_stopsAt (by simp) (fun h => absurd h (List.cons_ne_nil _ _)) fun t => ?_
    exact .openLine hquote (hbody.append_return hquote)
  | openEnd hquote hbody htail =>
    rw [Text.crlf_of_notMem (hfeed rfl)]
    exact (IsLexeme.openEnd hquote hbody htail).ofText_append
  | @punct c _ hgap hquote hpart hslash =>
    have hc : c ≠ '\n' := by
      rintro rfl
      exact absurd hgap (by decide)
    have hlexeme : IsLexeme (.punct c) [c] (Text.crlf rest) := by
      refine .punct hgap hquote hpart fun h => ?_
      obtain ⟨hstar, hdouble⟩ := hslash h
      exact ⟨Text.head?_crlf_ne (by decide) hstar, Text.head?_crlf_ne (by decide) hdouble⟩
    rw [Text.crlf_cons hc, Text.crlf_nil]
    exact hlexeme.ofText_append

/-- The tokens of the text with carriage returns. -/
theorem ofText_crlf {t : Text} (h : TakesNoFeed t) :
    ofText (Text.crlf t) = (ofText t).map crlf := by
  obtain ⟨pieces, gap, rest, hpartition, hfeed⟩ := h
  rw [← hpartition.tokens]
  obtain ⟨rfl, hfits, hgap, hrest⟩ := hpartition
  induction pieces with
  | nil =>
    have hrest' : Text.crlf rest = [] ∨ IsOpenComment (Text.crlf rest) := by
      rcases hrest with rfl | ⟨body, rfl, hbody⟩
      · exact .inl rfl
      · exact .inr ⟨Text.crlf body, rfl, noClose_crlf.2 hbody⟩
    simp only [List.flatMap_nil, List.nil_append, List.map_nil]
    rw [Text.crlf_append, ofText_gap_append (all_isGap_crlf hgap), ofText_eq_nil hrest']
  | cons piece pieces ih =>
    obtain ⟨hpiece, hlexeme, hpieces⟩ := hfits
    have ih := ih (fun p hp => hfeed p (List.mem_cons_of_mem _ hp)) hpieces
    have hspares := hfeed piece List.mem_cons_self
    simp only [List.flatMap_cons, Piece.text, List.append_assoc, List.map_cons]
    rw [Text.crlf_append, ofText_gap_append (all_isGap_crlf hpiece),
      hlexeme.ofText_crlf hspares, ih]

end Token

/-! ## What is found in a file -/

theorem Declaration.view_crlf (token : Token) : view token.crlf = view token := by
  cases token with
  | comment body doc =>
    have hmarker : Text.contains nativeMarker (Text.crlf body) = Text.contains nativeMarker body :=
      Text.contains_crlf (by decide) (by decide) (by decide)
    rw [Token.crlf, view, hmarker, view]
  | _ => rfl

theorem DocBlock.ofToken?_crlf (origin : Path) (token : Token) :
    ofToken? origin token.crlf = ofToken? origin token := by
  cases token with
  | comment body doc =>
    cases doc with
    | true =>
      rw [Token.crlf, ofToken?, ofToken?, ofBody?, ofBody?, Text.map_trimEnd_lines_crlf]
    | false => rfl
  | _ => rfl

/-- The file with a carriage return in front of each line feed. -/
def SourceFile.crlf (file : SourceFile) : SourceFile := { file with text := Text.crlf file.text }

/-- The sources with a carriage return in front of each line feed. -/
def SourceSet.crlf (set : SourceSet) : SourceSet :=
  { set with
    grouped := set.grouped.map SourceFile.crlf
    individual := set.individual.map SourceFile.crlf }

namespace SourceFile

variable {file : SourceFile}

theorem declarations_crlf (h : Token.TakesNoFeed file.text) (kind : SourceKind) :
    file.crlf.declarations kind = file.declarations kind := by
  cases kind with
  | grouped =>
    apply Declaration.ofTokens_eq_of_map_view_eq
    have htokens : file.crlf.tokens = file.tokens.map Token.crlf := Token.ofText_crlf h
    rw [htokens, List.map_map]
    exact List.map_congr_left fun token _ => Declaration.view_crlf token
  | individual => rfl

theorem blocks_crlf (h : Token.TakesNoFeed file.text) : file.crlf.blocks = file.blocks := by
  have htokens : file.crlf.tokens = file.tokens.map Token.crlf := Token.ofText_crlf h
  rw [blocks, blocks, htokens, DocBlock.ofTokens, List.filterMap_map]
  exact List.filterMap_congr fun token _ => DocBlock.ofToken?_crlf file.path token

end SourceFile

namespace SourceSet

variable {set : SourceSet}

theorem flatMap_map_crlf {α : Type} {files : List SourceFile} {found : SourceFile → List α}
    (h : ∀ file ∈ files, found file.crlf = found file) :
    (files.map SourceFile.crlf).flatMap found = files.flatMap found := by
  rw [List.flatMap_map]
  exact List.flatMap_congr h

theorem declarations_crlf
    (h : ∀ file ∈ set.grouped ++ set.individual, Token.TakesNoFeed file.text) :
    set.crlf.declarations = set.declarations := by
  have hfile (kind : SourceKind) (file : SourceFile)
      (hfile : file ∈ set.grouped ++ set.individual) :
      file.crlf.declarations kind = file.declarations kind :=
    SourceFile.declarations_crlf (h file hfile) kind
  rw [declarations, declarations, crlf,
    flatMap_map_crlf fun file hmem => hfile .grouped file (List.mem_append_left _ hmem),
    flatMap_map_crlf fun file hmem => hfile .individual file (List.mem_append_right _ hmem)]

theorem blocks_crlf (h : ∀ file ∈ set.grouped ++ set.individual, Token.TakesNoFeed file.text) :
    set.crlf.blocks = set.blocks := by
  rw [blocks, blocks, crlf, ← List.map_append]
  exact flatMap_map_crlf fun file hmem => SourceFile.blocks_crlf (h file hmem)

theorem includes_crlf (set : SourceSet) :
    (set.crlf.grouped.map fun file => Path.textFrom set.crlf.root file.path) =
      set.grouped.map fun file => Path.textFrom set.root file.path := by
  rw [crlf, List.map_map]
  rfl

end SourceSet

/-- Sources in which no literal takes a line feed along are the same with a carriage return in
front of each line feed: every file declares the same and has the same doc blocks, however it
declares primitives, and the sources are assembled to the same. -/
theorem Assembly.ofSources_crlf {set : SourceSet}
    (h : ∀ file ∈ set.grouped ++ set.individual, Token.TakesNoFeed file.text) :
    (∀ file ∈ set.grouped ++ set.individual, ∀ kind,
      file.crlf.declarations kind = file.declarations kind ∧ file.crlf.blocks = file.blocks) ∧
    ofSources set.crlf = ofSources set ∧ warnings set.crlf = warnings set := by
  refine ⟨fun file hfile kind => ?_, ?_, ?_⟩
  · exact ⟨SourceFile.declarations_crlf (h file hfile) kind, SourceFile.blocks_crlf (h file hfile)⟩
  · rw [ofSources, ofSources, SourceSet.includes_crlf, SourceSet.declarations_crlf h,
      SourceSet.blocks_crlf h]
  · rw [warnings, warnings, SourceSet.blocks_crlf h]

/-- A doc block over several lines, and a literal with a quote in it. -/
def twoLineSet : SourceSet where
  root := ⟨"/r".toList⟩
  grouped := [⟨⟨"/r/a.c".toList⟩, "/**\nQ0 OK 1 a :\nFirst.\n*/\n'\\''".toList⟩]
  individual := []

theorem ofSources_crlf_twoLineSet :
    (∀ file ∈ twoLineSet.grouped ++ twoLineSet.individual, Token.TakesNoFeed file.text) ∧
      twoLineSet.crlf ≠ twoLineSet ∧
      Assembly.ofSources twoLineSet.crlf = Assembly.ofSources twoLineSet := by
  have hcomment : IsLexeme (.comment "\nQ0 OK 1 a :\nFirst.\n".toList true)
      "/**\nQ0 OK 1 a :\nFirst.\n*/".toList "\n'\\''".toList := .docComment (by decide)
  have hliteral : IsLexeme .literal "'\\''".toList [] := .quoted (by decide) (.escaped .nil)
  have h : ∀ file ∈ twoLineSet.grouped ++ twoLineSet.individual, Token.TakesNoFeed file.text := by
    intro file hfile
    obtain rfl := List.mem_singleton.1 hfile
    refine ⟨[⟨[], _, _⟩, ⟨['\n'], _, _⟩], [], [],
      ⟨rfl, ⟨rfl, hcomment, rfl, hliteral, trivial⟩, rfl, .inl rfl⟩, ?_⟩
    decide
  exact ⟨h, by decide, (Assembly.ofSources_crlf h).2.1⟩

/-- A literal over two lines, with a definition on the second.  With a carriage return it is
declared. -/
example :
    let file : SourceFile := ⟨⟨"a.c".toList⟩, "\"\\\nvoid a_(pEnv env)\"".toList⟩
    file.declarations .grouped = [] ∧
      file.crlf.declarations .grouped = [⟨"a_".toList, .function, false, file.path⟩] := by
  decide +kernel

end Optable
