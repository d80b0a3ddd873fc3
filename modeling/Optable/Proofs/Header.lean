import Optable.Artifact
import Optable.Proofs.Collisions
import Optable.Proofs.Declaration
/-!
# The header read back

The header is itself source text.  Scanning it finds a prototype of each symbol of its sections, in
the order of the sections, and nothing else: what comes before, between and behind the prototypes
neither declares a symbol nor marks one as native.  The prototypes of the native section, and no
others, stand between the `#ifdef` of its macro and the `#endif` that belongs to it.
-/

namespace Optable

open Token (ofText isIdent isIdentPart NoClose IsLexeme ofText_ident_append_cons ofText_gap_cons
  ofText_punct_cons)
open Artifact (prototype headerGuard nativeGuard renderNative renderHeader banner)

/-! ## Prototypes -/

namespace Declaration

variable (origin : Path) {before : Option Token} {symbols : List Text}

/-- The tokens of a prototype. -/
def prototypeTokens (symbol : Text) : List Token :=
  [.ident "void".toList, .ident symbol, .punct '(', .ident "pEnv".toList, .ident "env".toList,
    .punct ')', .punct ';']

/-- The declaration that a prototype makes. -/
def ofPrototype (symbol : Text) : Declaration := ⟨symbol, .function, false, origin⟩

theorem ofText_prototype_append {symbol : Text} (h : isIdent symbol) (t : Text) :
    ofText (prototype symbol ++ t) = prototypeTokens symbol ++ ofText t := by
  have htext : prototype symbol ++ t =
      "void".toList ++ ' ' :: (symbol ++ '(' :: ("pEnv".toList ++ ' ' :: ("env".toList ++
        ')' :: ';' :: '\n' :: t))) := by simp [prototype]
  rw [htext, ofText_ident_append_cons (by decide) (by decide),
    ofText_gap_cons (by decide), ofText_ident_append_cons h (by decide),
    ofText_punct_cons (by decide), ofText_ident_append_cons (by decide) (by decide),
    ofText_gap_cons (by decide), ofText_ident_append_cons (by decide) (by decide),
    ofText_punct_cons (by decide), ofText_punct_cons (by decide), ofText_gap_cons (by decide)]
  rfl

theorem ofText_prototypes_append (h : ∀ s ∈ symbols, IsSymbol s) (t : Text) :
    ofText (symbols.flatMap prototype ++ t) = symbols.flatMap prototypeTokens ++ ofText t := by
  induction symbols with
  | nil => rfl
  | cons s symbols ih =>
    obtain ⟨hs, hrest⟩ := List.forall_mem_cons.1 h
    rw [List.flatMap_cons, List.append_assoc, ofText_prototype_append hs.ident, ih hrest,
      List.flatMap_cons, List.append_assoc]

theorem after_prototypeTokens_append {symbol : Text} (h : isPrimitive symbol)
    (hbefore : before.any marksNative = false) (tokens : List Token) :
    after origin before (prototypeTokens symbol ++ tokens) =
      ofPrototype origin symbol :: after origin (some (.punct ';')) tokens := by
  have hshape : (Shape.function symbol "env".toList).WellFormed := h
  have htokens : prototypeTokens symbol ++ tokens =
      (Shape.function symbol "env".toList).tokens ++ .punct ';' :: tokens := rfl
  rw [htokens, after_shape_append hshape, hbefore, ofTokens, after_cons_of_next?_eq_none rfl]
  rfl

/-- Prototypes make one declaration each.  None of them is native, for what follows a prototype
follows a semicolon. -/
theorem after_prototypes_append (h : ∀ s ∈ symbols, IsSymbol s)
    (hbefore : before.any marksNative = false) (tokens : List Token) :
    ∃ last, last.any marksNative = false ∧
      after origin before (symbols.flatMap prototypeTokens ++ tokens) =
        symbols.map (ofPrototype origin) ++ after origin last tokens := by
  induction symbols generalizing before with
  | nil => exact ⟨before, hbefore, rfl⟩
  | cons s symbols ih =>
    obtain ⟨hs, hrest⟩ := List.forall_mem_cons.1 h
    have hsemicolon : (some (Token.punct ';')).any marksNative = false := rfl
    obtain ⟨last, hlast, hsymbols⟩ := ih hrest hsemicolon
    refine ⟨last, hlast, ?_⟩
    rw [List.flatMap_cons, List.append_assoc,
      after_prototypeTokens_append origin hs.primitive hbefore,
      hsymbols, List.map_cons, List.cons_append]

theorem hash_notMem_prototypes (h : ∀ s ∈ symbols, IsSymbol s) :
    '#' ∉ symbols.flatMap prototype := by
  intro hmem
  obtain ⟨s, hs, hmem⟩ := List.mem_flatMap.1 hmem
  have hparts := List.all_eq_true.1 (Token.all_isIdentPart_of_isIdent (h s hs).ident)
  have hsymbol : '#' ∉ s := fun hmem => absurd (hparts _ hmem) (by decide)
  simp [prototype, hsymbol] at hmem

end Declaration

/-! ## The lines around the prototypes -/

namespace Header

open Declaration

/-- The header in front of its prototypes. -/
def opening : Text :=
  "#ifndef ".toList ++ headerGuard ++ "\n#define ".toList ++ headerGuard ++ "\n\n".toList
    ++ banner ++ "/* Declares all builtin functions */\n\n#include \"globals.h\"\n\n".toList

/-- The tokens in front of the prototypes. -/
def openingTokens : List Token :=
  [.punct '#', .ident "ifndef".toList, .ident headerGuard,
    .punct '#', .ident "define".toList, .ident headerGuard,
    .comment " Generated file - do not edit ".toList false,
    .comment " Declares all builtin functions ".toList false,
    .punct '#', .ident "include".toList, .literal]

/-- What stands on a line behind the `#endif` of a macro. -/
def remark (guard : Text) : Text := " /* ".toList ++ guard ++ " */\n".toList

/-- The header behind its prototypes. -/
def closing : Text := "\n#endif /* ".toList ++ headerGuard ++ " */\n".toList

/-- The tokens of the line that ends what depends on a macro. -/
def endTokens (guard : Text) : List Token :=
  [.punct '#', .ident "endif".toList, .comment (' ' :: guard ++ [' ']) false]

theorem ofText_directive_append {word argument : Text} (hword : isIdent word)
    (hargument : isIdent argument) (t : Text) :
    ofText ("#".toList ++ word ++ " ".toList ++ argument ++ "\n".toList ++ t) =
      .punct '#' :: .ident word :: .ident argument :: ofText t := by
  have htext : "#".toList ++ word ++ " ".toList ++ argument ++ "\n".toList ++ t =
      '#' :: (word ++ ' ' :: (argument ++ '\n' :: t)) := by simp
  rw [htext, ofText_punct_cons (by decide), ofText_ident_append_cons hword (by decide),
    ofText_gap_cons (by decide), ofText_ident_append_cons hargument (by decide),
    ofText_gap_cons (by decide)]

theorem ofText_comment_append {body : Text} (h : NoClose (' ' :: body)) (t : Text) :
    ofText ("/* ".toList ++ body ++ "*/\n".toList ++ t) =
      .comment (' ' :: body) false :: ofText t := by
  have hlexeme : IsLexeme (.comment (' ' :: body) false)
      ('/' :: '*' :: (' ' :: body) ++ ['*', '/']) ('\n' :: t) := .comment h (by simp)
  have htext : "/* ".toList ++ body ++ "*/\n".toList ++ t =
      ('/' :: '*' :: (' ' :: body) ++ ['*', '/']) ++ '\n' :: t := by simp
  rw [htext, hlexeme.ofText_append, ofText_gap_cons (by decide)]

theorem ofText_remark_append {guard : Text} (h : NoClose (' ' :: (guard ++ [' ']))) (t : Text) :
    ofText (remark guard ++ t) = .comment (' ' :: guard ++ [' ']) false :: ofText t := by
  have htext : remark guard ++ t =
      ' ' :: ("/* ".toList ++ (guard ++ [' ']) ++ "*/\n".toList ++ t) := by simp [remark]
  rw [htext, ofText_gap_cons (by decide), ofText_comment_append h]
  rfl

theorem ofText_endif_append {guard : Text} (h : NoClose (' ' :: (guard ++ [' ']))) (t : Text) :
    ofText ("#endif".toList ++ remark guard ++ t) = endTokens guard ++ ofText t := by
  have htext : "#endif".toList ++ remark guard ++ t =
      '#' :: ("endif".toList ++ ' ' :: ((remark guard).tail ++ t)) := by simp [remark]
  have hremark : ' ' :: ((remark guard).tail ++ t) = remark guard ++ t := by simp [remark]
  rw [htext, ofText_punct_cons (by decide), ofText_ident_append_cons (by decide) (by decide),
    hremark, ofText_remark_append h]
  rfl

theorem ofText_opening_append (t : Text) : ofText (opening ++ t) = openingTokens ++ ofText t := by
  have htext : opening ++ t =
      "#".toList ++ "ifndef".toList ++ " ".toList ++ headerGuard ++ "\n".toList
        ++ ("#".toList ++ "define".toList ++ " ".toList ++ headerGuard ++ "\n".toList
        ++ ('\n' :: ("/* ".toList ++ "Generated file - do not edit ".toList ++ "*/\n".toList
        ++ ("/* ".toList ++ "Declares all builtin functions ".toList ++ "*/\n".toList
        ++ ('\n' :: '#' :: ("include".toList ++ ' ' ::
          ("\"globals.h\"".toList ++ '\n' :: '\n' :: t))))))) := rfl
  have hquoted : ofText ("\"globals.h\"".toList ++ '\n' :: '\n' :: t) = .literal :: ofText t := by
    have hnext : Token.next? (("\"globals.h\"".toList ++ '\n' :: '\n' :: t).dropWhile Token.isGap) =
        some (.literal, '\n' :: '\n' :: t) := rfl
    rw [Token.ofText_of_next?_eq_some hnext, ofText_gap_cons (by decide),
      ofText_gap_cons (by decide)]
  rw [htext, ofText_directive_append (by decide) (by decide),
    ofText_directive_append (by decide) (by decide), ofText_gap_cons (by decide),
    ofText_comment_append (by decide), ofText_comment_append (by decide),
    ofText_gap_cons (by decide), ofText_punct_cons (by decide),
    ofText_ident_append_cons (by decide) (by decide), ofText_gap_cons (by decide), hquoted]
  rfl

theorem ofText_closing : ofText closing = endTokens headerGuard := by
  have htext : closing = '\n' :: ("#endif".toList ++ remark headerGuard ++ []) := rfl
  rw [htext, ofText_gap_cons (by decide), ofText_endif_append (by decide),
    Token.ofText_eq_nil (.inl rfl), List.append_nil]

/-! ## What scanning finds -/

section Scanned

variable (origin : Path) {before : Option Token} {regular native : List Text}

theorem after_openingTokens_append (tokens : List Token) :
    after origin none (openingTokens ++ tokens) = after origin (some .literal) tokens := rfl

theorem after_endTokens_append (before : Option Token) (guard : Text) (tokens : List Token) :
    ∃ last, after origin before (endTokens guard ++ tokens) = after origin last tokens := by
  exact ⟨some (.comment (' ' :: guard ++ [' ']) false), rfl⟩

/-- The tokens of the section of native symbols. -/
def nativeTokens (native : List Text) : List Token :=
  .punct '#' :: .ident "ifdef".toList :: .ident nativeGuard ::
    (native.flatMap prototypeTokens ++ endTokens nativeGuard)

theorem functionName?_eq_none {result : Text} (h : result ≠ "void".toList) (tokens : List Token) :
    functionName? (.ident result :: tokens) = none := by
  unfold functionName?
  split
  · next heq =>
    obtain ⟨rfl, -⟩ := by simpa using heq
    exact if_neg fun hvoid => h hvoid.1
  · rfl

/-- A directive declares nothing together with the identifier on the next line. -/
theorem after_directive_cons {word argument : Text} (h : argument ≠ "void".toList) (name : Text)
    (tokens : List Token) :
    after origin before (.punct '#' :: .ident word :: .ident argument :: .ident name :: tokens) =
      after origin (some (.ident argument)) (.ident name :: tokens) := by
  have hargument : next? origin (some (.ident word)) (.ident argument :: .ident name :: tokens) =
      none := by
    rw [next?, functionName?_eq_none h]
    rfl
  rw [after_cons_of_next?_eq_none rfl, after_cons_of_next?_eq_none rfl,
    after_cons_of_next?_eq_none hargument]

theorem after_nativeTokens_append (before : Option Token) (hne : native ≠ [])
    (h : ∀ s ∈ native, IsSymbol s) (tokens : List Token) :
    ∃ last, after origin before (nativeTokens native ++ tokens) =
      native.map (ofPrototype origin) ++ after origin last tokens := by
  have hguard : after origin before (nativeTokens native ++ tokens) =
      after origin (some (.ident nativeGuard))
        (native.flatMap prototypeTokens ++ (endTokens nativeGuard ++ tokens)) := by
    obtain ⟨s, native, rfl⟩ := List.exists_cons_of_ne_nil hne
    simp only [nativeTokens, List.cons_append, List.flatMap_cons, prototypeTokens,
      List.append_assoc]
    exact after_directive_cons origin (by decide) _ _
  have hunmarked : (some (Token.ident nativeGuard)).any marksNative = false := rfl
  obtain ⟨last, -, hnative⟩ :=
    after_prototypes_append origin h hunmarked (endTokens nativeGuard ++ tokens)
  obtain ⟨last', hend⟩ := after_endTokens_append origin last nativeGuard tokens
  exact ⟨last', by rw [hguard, hnative, hend]⟩

/-- Behind its opening a header declares the symbols of its prototypes, and then what comes behind
these. -/
theorem after_opening_append (h : ∀ s ∈ regular, IsSymbol s) (t : Text) :
    ∃ last, after origin none (ofText (opening ++ (regular.flatMap prototype ++ t))) =
      regular.map (ofPrototype origin) ++ after origin last (ofText t) := by
  have hliteral : (some Token.literal).any marksNative = false := rfl
  obtain ⟨last, -, hregular⟩ := after_prototypes_append origin h hliteral (ofText t)
  refine ⟨last, ?_⟩
  rw [ofText_opening_append, after_openingTokens_append, ofText_prototypes_append h, hregular]

theorem after_closing (before : Option Token) : after origin before (ofText closing) = [] := by
  obtain ⟨last, hend⟩ := after_endTokens_append origin before headerGuard []
  rw [ofText_closing, ← List.append_nil (endTokens headerGuard), hend]
  rfl

theorem ofText_renderNative_append {native : SymbolSet} (hne : native.toList ≠ [])
    (h : ∀ s ∈ native.toList, IsSymbol s) (t : Text) :
    ofText (renderNative native ++ t) = nativeTokens native.toList ++ ofText t := by
  have htext : renderNative native ++ t =
      '\n' :: ("#".toList ++ "ifdef".toList ++ " ".toList ++ nativeGuard ++ "\n".toList
        ++ (native.toList.flatMap prototype ++ ("#endif".toList ++ remark nativeGuard ++ t))) := by
    simp [renderNative, hne, remark]
  rw [htext, ofText_gap_cons (by decide), ofText_directive_append (by decide) (by decide),
    ofText_prototypes_append h, ofText_endif_append (by decide), nativeTokens]
  simp only [List.cons_append, List.append_assoc]

end Scanned

theorem renderHeader_eq (sections : Sections) :
    renderHeader sections = opening ++ (sections.regular.toList.flatMap prototype ++
      (renderNative sections.native ++ closing)) := by
  have hassoc (a b c d e f : Text) :
      a ++ b ++ c ++ d ++ e ++ f = a ++ (b ++ (c ++ (d ++ e ++ f))) := by
    simp only [List.append_assoc]
  exact hassoc opening _ _ _ _ _

/-- The header declares the symbols of its sections, and nothing else. -/
theorem declarations_renderHeader {sections : Sections}
    (hregular : ∀ s ∈ sections.regular.toList, IsSymbol s)
    (hnative : ∀ s ∈ sections.native.toList, IsSymbol s) (origin : Path) :
    (SourceFile.mk origin (renderHeader sections)).declarations .grouped =
      (sections.regular.toList ++ sections.native.toList).map (ofPrototype origin) := by
  change after origin none (ofText (renderHeader sections)) = _
  obtain ⟨last, hopening⟩ := after_opening_append origin hregular
    (renderNative sections.native ++ closing)
  rw [renderHeader_eq, hopening, List.map_append]
  refine congrArg _ ?_
  by_cases hne : sections.native.toList = []
  · rw [renderNative, hne, List.isEmpty_nil, if_pos rfl, List.nil_append, after_closing]
    rfl
  · obtain ⟨last', hsection⟩ := after_nativeTokens_append origin last hne hnative
      (ofText closing)
    rw [ofText_renderNative_append hne hnative, hsection, after_closing, List.append_nil]

/-! ## The native section -/

/-- The text between the `#ifdef` of a macro and its `#endif`, with what stands before and behind
these.  No directive stands inside, so that the `#endif` belongs to this `#ifdef`, and the macro has
no other section. -/
structure IsGuarded (guard t before inside behind : Text) : Prop where
  text_eq : t = before ++ ("#ifdef ".toList ++ guard) ++ inside ++ "#endif".toList ++ behind
  inside_plain : '#' ∉ inside
  before_open : ¬ "#ifdef ".toList ++ guard <:+: before
  behind_open : ¬ "#ifdef ".toList ++ guard <:+: behind

/-- The line that starts the native section. -/
def nativeDirective : Text := "#ifdef ".toList ++ nativeGuard

theorem hash_infix_append {word s t : Text} (hs : '#' ∉ s) :
    '#' :: word <:+: s ++ t ↔ '#' :: word <:+: t := by
  induction s with
  | nil => rfl
  | cons c s ih =>
    rw [List.mem_cons, not_or] at hs
    rw [List.cons_append, List.infix_cons_iff, List.cons_prefix_cons, ih hs.2]
    exact or_iff_right fun h => hs.1 h.1

/-- A directive is not found where the text starts with another one, if it is not found behind
that. -/
theorem not_hash_infix_cons {word line t : Text} (hline : '#' ∉ line)
    (hdiffer : ¬ word <+: line ∧ ¬ line <+: word) (ht : ¬ '#' :: word <:+: t) :
    ¬ '#' :: word <:+: '#' :: (line ++ t) := by
  rw [List.infix_cons_iff, List.cons_prefix_cons, hash_infix_append hline]
  rintro (⟨-, hword⟩ | h)
  · rcases List.prefix_or_prefix_of_prefix hword (List.prefix_append line t) with h | h
    · exact hdiffer.1 h
    · exact hdiffer.2 h
  · exact ht h

theorem not_nativeDirective_infix_opening {t : Text} (ht : ¬ nativeDirective <:+: t) :
    ¬ nativeDirective <:+: opening ++ t := by
  -- The opening has directives of its own, each of which is seen to be another one.
  have hlines : opening =
      '#' :: ("ifndef JOY_BUILTIN_GENERATED_H\n".toList
        ++ '#' :: ("define JOY_BUILTIN_GENERATED_H\n\n".toList ++ banner
          ++ "/* Declares all builtin functions */\n\n".toList
        ++ '#' :: "include \"globals.h\"\n\n".toList)) := by decide +kernel
  have hword : nativeDirective = '#' :: ("ifdef ".toList ++ nativeGuard) := rfl
  rw [hword] at ht ⊢
  rw [hlines, List.cons_append, List.append_assoc, List.cons_append, List.append_assoc,
    List.cons_append]
  refine not_hash_infix_cons (by decide) (by decide) ?_
  refine not_hash_infix_cons (by decide) (by decide) ?_
  exact not_hash_infix_cons (by decide) (by decide) ht

theorem not_nativeDirective_infix_closing : ¬ nativeDirective <:+: closing :=
  fun h => absurd (Text.contains_iff.2 h) (by decide)

/-- The header in front of its native section. -/
def beforeNative (regular : List Text) : Text := opening ++ (regular.flatMap prototype ++ ['\n'])

/-- The lines of the native section. -/
def insideNative (native : List Text) : Text := '\n' :: native.flatMap prototype

/-- The header behind its native section. -/
def behindNative : Text := remark nativeGuard ++ closing

theorem isGuarded_renderHeader {sections : Sections} (hne : sections.native.toList ≠ [])
    (hregular : ∀ s ∈ sections.regular.toList, IsSymbol s)
    (hnative : ∀ s ∈ sections.native.toList, IsSymbol s) :
    IsGuarded nativeGuard (renderHeader sections) (beforeNative sections.regular.toList)
      (insideNative sections.native.toList) behindNative where
  text_eq := by
    rw [renderHeader_eq]
    simp [renderNative, hne, beforeNative, insideNative, behindNative, remark]
  inside_plain := by simp [insideNative, hash_notMem_prototypes hnative]
  before_open := by
    have hhash : '#' ∉ sections.regular.toList.flatMap prototype ++ ['\n'] := by
      simp [hash_notMem_prototypes hregular]
    exact not_nativeDirective_infix_opening fun h => hhash (h.subset List.mem_cons_self)
  behind_open h := absurd (Text.contains_iff.2 h) (by decide)

section Parts

variable {symbols : List Text} (origin : Path)

theorem declarations_beforeNative (h : ∀ s ∈ symbols, IsSymbol s) :
    (SourceFile.mk origin (beforeNative symbols)).declarations .grouped =
      symbols.map (ofPrototype origin) := by
  obtain ⟨last, hopening⟩ := after_opening_append origin h ['\n']
  refine hopening.trans ?_
  rw [ofText_gap_cons (by decide), Token.ofText_eq_nil (.inl rfl)]
  exact List.append_nil _

theorem declarations_insideNative (h : ∀ s ∈ symbols, IsSymbol s) :
    (SourceFile.mk origin (insideNative symbols)).declarations .grouped =
      symbols.map (ofPrototype origin) := by
  change after origin none (ofText ('\n' :: symbols.flatMap prototype)) = _
  have hfirst : (none : Option Token).any marksNative = false := rfl
  obtain ⟨last, -, hprototypes⟩ := after_prototypes_append origin h hfirst []
  rw [ofText_gap_cons (by decide), ← List.append_nil (symbols.flatMap prototype),
    ofText_prototypes_append h, Token.ofText_eq_nil (.inl rfl), hprototypes]
  exact List.append_nil _

theorem declarations_behindNative :
    (SourceFile.mk origin behindNative).declarations .grouped = [] := by
  change after origin none (ofText (remark nativeGuard ++ closing)) = []
  rw [ofText_remark_append (by decide), after_comment_cons, after_closing]

end Parts

theorem not_nativeDirective_infix {sections : Sections} (h : sections.native.toList = [])
    (hregular : ∀ s ∈ sections.regular.toList, IsSymbol s) :
    ¬ nativeDirective <:+: renderHeader sections := by
  have hempty : renderNative sections.native = [] := by rw [renderNative, h]; rfl
  rw [renderHeader_eq, hempty, List.nil_append]
  refine not_nativeDirective_infix_opening fun hinfix => ?_
  have hclosing := (hash_infix_append (hash_notMem_prototypes hregular)).1 hinfix
  exact not_nativeDirective_infix_closing hclosing

end Header

/-- A header declares the symbols of its sections: scanning it finds the regular ones and then the
native ones, each once and as a function without a native marker, and the native ones, but no
others, stand in the section of the native macro, which there is only if it has symbols. -/
structure Sections.IsDeclaredBy (sections : Sections) (header : Text) (origin : Path) : Prop where
  declarations_eq : (SourceFile.mk origin header).declarations .grouped =
    (sections.regular.toList ++ sections.native.toList).map (Declaration.ofPrototype origin)
  nodup : (sections.regular.toList ++ sections.native.toList).Nodup
  unguarded : sections.native.toList = [] → ¬ Header.nativeDirective <:+: header
  guarded : sections.native.toList ≠ [] → ∃ before inside behind,
    Header.IsGuarded nativeGuard header before inside behind ∧
      (SourceFile.mk origin before).declarations .grouped =
        sections.regular.toList.map (Declaration.ofPrototype origin) ∧
      (SourceFile.mk origin inside).declarations .grouped =
        sections.native.toList.map (Declaration.ofPrototype origin) ∧
      (SourceFile.mk origin behind).declarations .grouped = []

/-! ## The header of an assembly -/

/-- Whatever is declared can be declared in a header, if the files of one primitive are named by
identifiers. -/
theorem SourceSet.isSymbol_of_mem_declarations {set : SourceSet}
    (h : ∀ file ∈ set.individual, ∀ stem ∈ file.path.stem?, isIdent stem) {d : Declaration}
    (hd : d ∈ set.declarations) : Declaration.IsSymbol d.symbol := by
  rw [declarations, List.mem_append] at hd
  rcases hd with hd | hd
  · obtain ⟨file, -, hd⟩ := List.mem_flatMap.1 hd
    exact Declaration.isSymbol_of_mem_after (fun _ => Token.isIdent_of_mem_ofText) hd
  · obtain ⟨file, hfile, hd⟩ := List.mem_flatMap.1 hd
    obtain ⟨stem, hstem, rfl⟩ := List.mem_map.1 hd
    exact Declaration.isSymbol_ofName (h file hfile stem (Option.mem_toList.1 hstem))

/-- An assembly declares what its sources declare: the native symbols, and the others that are not
native too, while it reports those that are declared both ways.  If the files of one primitive are
named by identifiers, its header declares these symbols again. -/
theorem Assembly.isListing_and_isDeclaredBy (set : SourceSet) :
    let declared := Sections.Declares set.declarations
    let sections := (ofSources set).sections
    Text.IsListing (declared true) sections.native.toList ∧
      Text.IsListing (fun s => declared false s ∧ ¬ declared true s) sections.regular.toList ∧
      Text.IsListing (fun s => declared false s ∧ declared true s)
        ((ofSources set).collisions.filterMap Collision.symbol?) ∧
      ((∀ file ∈ set.individual, ∀ stem ∈ file.path.stem?, isIdent stem) →
        ∀ origin, sections.IsDeclaredBy (Artifact.render (ofSources set) .header) origin) := by
  intro declared sections
  have hnative := Sections.isListing_native set.declarations
  have hregular := Sections.isListing_regular set.declarations
  refine ⟨hnative, hregular, ?_, fun hstems origin => ?_⟩
  · rw [filterMap_symbol?_collisions]
    exact Sections.isListing_conflicting set.declarations
  -- Only symbols of the scanner's own shape are declared, so that it reads their prototypes again.
  have hsymbol {native : Bool} {s : Text} (hs : declared native s) : Declaration.IsSymbol s := by
    obtain ⟨d, hd, -, rfl⟩ := hs
    exact SourceSet.isSymbol_of_mem_declarations hstems hd
  have hnatives : ∀ s ∈ sections.native.toList, Declaration.IsSymbol s :=
    fun s hs => hsymbol ((hnative.mem_iff s).1 hs)
  have hregulars : ∀ s ∈ sections.regular.toList, Declaration.IsSymbol s :=
    fun s hs => hsymbol ((hregular.mem_iff s).1 hs).1
  constructor
  · exact Header.declarations_renderHeader hregulars hnatives origin
  · refine List.nodup_append.2 ⟨hregular.nodup, hnative.nodup, ?_⟩
    rintro s hs t ht rfl
    exact ((hregular.mem_iff s).1 hs).2 ((hnative.mem_iff s).1 ht)
  · exact fun hempty => Header.not_nativeDirective_infix hempty hregulars
  · exact fun hne => ⟨_, _, _, Header.isGuarded_renderHeader hne hregulars hnatives,
      Header.declarations_beforeNative origin hregulars,
      Header.declarations_insideNative origin hnatives, Header.declarations_behindNative origin⟩

/-- A grouped file that declares a symbol both ways, and a file of one primitive. -/
def SourceSet.vectors : SourceSet where
  root := ⟨"/r".toList⟩
  grouped := [⟨⟨"/r/v.c".toList⟩, "/* [NATIVE] */ void vnew_(pEnv env) \x7b\x7d
UNARY(ceil_, x) void vnew_(pEnv env);".toList⟩]
  individual := [⟨⟨"/r/individual/pmap.c".toList⟩, []⟩]

theorem Assembly.isDeclaredBy_vectors :
    let assembly := ofSources SourceSet.vectors
    (∀ file ∈ SourceSet.vectors.individual, ∀ stem ∈ file.path.stem?, isIdent stem) ∧
      assembly.sections.native.toList = ["vnew_".toList] ∧
      assembly.sections.regular.toList = ["ceil_".toList, "pmap_".toList] ∧
      assembly.collisions.filterMap Collision.symbol? = ["vnew_".toList] ∧
      ∀ origin, assembly.sections.IsDeclaredBy (Artifact.render assembly .header) origin := by
  intro assembly
  have hstems : ∀ file ∈ SourceSet.vectors.individual, ∀ stem ∈ file.path.stem?, isIdent stem := by
    decide
  obtain ⟨-, -, -, hdeclared⟩ := Assembly.isListing_and_isDeclaredBy SourceSet.vectors
  exact ⟨hstems, by decide +kernel, by decide +kernel, by decide +kernel, hdeclared hstems⟩

end Optable
