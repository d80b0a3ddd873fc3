import Optable.Entry
import Optable.Proofs.Declaration
import Optable.Proofs.DocBlock
import Optable.Proofs.Index
/-!
# Definitions of primitives

A definition of a primitive is a doc comment and the code under it.  Where definitions are written
out one after another, the tokens of each are found on their own: one doc block, one declaration,
and from them one row and one symbol.
-/

namespace Optable

open Text (trim trimEnd)
open Token (NoClose isIdent)

/-- The code under a doc comment. -/
inductive Idiom where
  | function
  | macroCall (callee : Text)
  deriving DecidableEq, Repr

/-- A macro that is called has the name of a macro. -/
def Idiom.isNamed : Idiom → Bool
  | .function => true
  | .macroCall callee => Declaration.isMacro callee

/-- A primitive as a source file defines it. -/
structure Definition where
  qcode : Text
  flags : Text
  index : Int
  name : Text
  signature : Text
  description : Text
  idiom : Idiom
  deriving DecidableEq, Repr

namespace Definition

/-- The symbol that the code declares. -/
def symbol (d : Definition) : Text := Symbol.ofName d.name

/-- The text of the doc comment between its delimiters. -/
def comment (d : Definition) : Text :=
  "\n".toList ++ d.qcode ++ " ".toList ++ d.flags ++ " ".toList ++ Text.ofInt d.index
    ++ " ".toList ++ d.name ++ " : ".toList ++ d.signature ++ "\n".toList ++ d.description
    ++ "\n".toList

/-- The text of the code. -/
def code (d : Definition) : Text :=
  match d.idiom with
  | .function => "void ".toList ++ d.symbol ++ "(pEnv env)\n\x7b\n\x7d\n".toList
  | .macroCall callee => callee ++ "(".toList ++ d.symbol ++ ", x)\n".toList

/-- The definition as it is written. -/
def text (d : Definition) : Text := "/**".toList ++ d.comment ++ "*/\n".toList ++ d.code

/-- The row of the definition. -/
def entry (d : Definition) : Entry where
  index := d.index
  indexText := Text.ofInt d.index
  qcode := d.qcode
  flags := d.flags
  name := Literal.escape d.name
  symbol := d.symbol
  signature := Literal.escape d.signature
  description := Literal.escape d.description

/-- A function whose doc comment holds the native marker. -/
def IsNative (d : Definition) : Prop :=
  d.idiom = .function ∧ Declaration.nativeMarker <:+: d.comment

/-- A definition that its text gives back. -/
structure WellFormed (d : Definition) : Prop where
  qcode_head : d.qcode.head? = some 'Q'
  qcode : DocHeader.IsWord d.qcode
  flags : DocHeader.IsWord d.flags
  index : Index.InRange d.index
  name : DocHeader.IsWord d.name
  signature_trimmed : trim d.signature = d.signature
  signature_line : '\n' ∉ d.signature
  description_trimmed : trim d.description = d.description
  description_lines : ∀ line ∈ Text.lines d.description, trimEnd line = line
  comment_open : NoClose d.comment
  symbol_ident : isIdent d.symbol
  symbol_length : 1 < d.symbol.length
  idiom_named : d.idiom.isNamed

/-! ## The tokens of a definition -/

variable {d : Definition}

/-- The doc block that the comment holds. -/
def block (d : Definition) (origin : Path) : DocBlock where
  header :=
    { qcode := d.qcode
      flags := d.flags
      index := Text.ofInt d.index
      name := d.name
      signature := d.signature }
  description := d.description
  origin := origin

/-- The declaration that the code makes. -/
def declaration (d : Definition) (origin : Path) : Declaration where
  token := d.symbol
  kind := match d.idiom with
    | .function => .function
    | .macroCall _ => .macroCall
  native := match d.idiom with
    | .function => Text.contains Declaration.nativeMarker d.comment
    | .macroCall _ => false
  origin := origin

/-- The tokens of the code. -/
def codeTokens (d : Definition) : List Token :=
  match d.idiom with
  | .function => Declaration.functionTokens d.symbol
  | .macroCall callee => Declaration.macroTokens callee d.symbol

/-- The tokens of the definition. -/
def tokens (d : Definition) : List Token := .comment d.comment true :: d.codeTokens

theorem body_block (d : Definition) (origin : Path) : (d.block origin).body = d.comment := by
  unfold DocBlock.body block comment
  simp only [String.reduceToList, List.append_assoc, List.cons_append, List.nil_append]

theorem text_eq (d : Definition) (origin : Path) : d.text = (d.block origin).print ++ d.code := by
  rw [text, DocBlock.print, body_block]

theorem isWord_index (d : Definition) : DocHeader.IsWord (Text.ofInt d.index) := by
  refine ⟨Index.ofInt_ne_nil d.index, fun c hc => ?_, fun hc => ?_⟩
  · rcases Index.mem_ofInt hc with rfl | hdigit
    · decide
    · exact Token.isBlank_eq_false_of_isDigit hdigit
  · rcases Index.mem_ofInt hc with h | h <;> exact absurd h (by decide)

theorem WellFormed.canonical (h : d.WellFormed) (origin : Path) : (d.block origin).Canonical where
  header :=
    { qcode_head := h.qcode_head
      qcode := h.qcode
      flags := h.flags
      index := d.isWord_index
      name := h.name
      signature_trimmed := h.signature_trimmed
      signature_line := h.signature_line }
  description_trimmed := h.description_trimmed
  description_lines := h.description_lines

theorem WellFormed.isMacro (h : d.WellFormed) {callee : Text}
    (hcallee : d.idiom = .macroCall callee) : Declaration.isMacro callee := by
  have hnamed : d.idiom.isNamed := h.idiom_named
  rwa [hcallee] at hnamed

theorem WellFormed.ofText_code_append (h : d.WellFormed) (t : Text) :
    Token.ofText (d.code ++ t) = d.codeTokens ++ Token.ofText t := by
  unfold code codeTokens
  split
  · exact Declaration.ofText_function_append h.symbol_ident t
  · next callee hcallee =>
    exact Declaration.ofText_macroCall_append (h.isMacro hcallee) h.symbol_ident t

theorem WellFormed.ofText_text_append (h : d.WellFormed) (t : Text) :
    Token.ofText (d.text ++ t) = d.tokens ++ Token.ofText t := by
  have hbody : NoClose (d.block default).body := by
    rw [body_block]
    exact h.comment_open
  rw [text_eq d default, List.append_assoc, DocBlock.ofText_print_append hbody, body_block,
    h.ofText_code_append]
  rfl

/-- The tokens of a file of definitions are those of its definitions, one after another. -/
theorem ofText_flatMap_text {definitions : List Definition}
    (h : ∀ d ∈ definitions, d.WellFormed) :
    Token.ofText (definitions.flatMap text) = definitions.flatMap tokens := by
  induction definitions with
  | nil => exact Token.ofText_eq_nil (.inl rfl)
  | cons d definitions ih =>
    obtain ⟨hd, hrest⟩ := List.forall_mem_cons.1 h
    rw [List.flatMap_cons, List.flatMap_cons, hd.ofText_text_append, ih hrest]

/-! ## What is found in the tokens -/

theorem ofTokens_codeTokens (d : Definition) (origin : Path) :
    DocBlock.ofTokens origin d.codeTokens = [] := by
  unfold codeTokens
  split <;> rfl

theorem WellFormed.ofTokens_tokens (h : d.WellFormed) (origin : Path) :
    DocBlock.ofTokens origin d.tokens = [d.block origin] := by
  have hread : DocBlock.ofToken? origin (.comment d.comment true) = some (d.block origin) := by
    rw [← body_block d origin]
    exact (h.canonical origin).ofBody?_body
  rw [DocBlock.ofTokens, tokens, List.filterMap_cons_some hread]
  exact congrArg _ (d.ofTokens_codeTokens origin)

theorem WellFormed.isPrimitive_symbol (h : d.WellFormed) : Declaration.isPrimitive d.symbol := by
  have hparts : d.symbol.all Token.isIdentPart :=
    Token.all_isIdentPart_of_isIdent h.symbol_ident
  exact Declaration.isPrimitive_ofName h.symbol_length hparts

theorem WellFormed.after_tokens_append (h : d.WellFormed) (origin : Path)
    (before : Option Token) (more : List Token) :
    ∃ last, Declaration.after origin before (d.tokens ++ more) =
      d.declaration origin :: Declaration.after origin last more := by
  rw [tokens, List.cons_append, Declaration.after_comment_cons]
  unfold codeTokens declaration
  split
  · exact ⟨_, Declaration.after_functionTokens_append h.isPrimitive_symbol more⟩
  · next callee hcallee =>
    have hmacro : Declaration.isMacro callee := h.isMacro hcallee
    exact ⟨_, Declaration.after_macroTokens_append hmacro h.isPrimitive_symbol more⟩

theorem ofTokens_flatMap_text {definitions : List Definition}
    (h : ∀ d ∈ definitions, d.WellFormed) (origin : Path) :
    DocBlock.ofTokens origin (Token.ofText (definitions.flatMap text)) =
      definitions.map (·.block origin) := by
  rw [ofText_flatMap_text h]
  induction definitions with
  | nil => rfl
  | cons d definitions ih =>
    obtain ⟨hd, hrest⟩ := List.forall_mem_cons.1 h
    rw [List.flatMap_cons, DocBlock.ofTokens_append, hd.ofTokens_tokens, ih hrest]
    rfl

theorem after_flatMap_text {definitions : List Definition}
    (h : ∀ d ∈ definitions, d.WellFormed) (origin : Path) (before : Option Token) :
    Declaration.after origin before (Token.ofText (definitions.flatMap text)) =
      definitions.map (·.declaration origin) := by
  rw [ofText_flatMap_text h]
  induction definitions generalizing before with
  | nil => rfl
  | cons d definitions ih =>
    obtain ⟨hd, hrest⟩ := List.forall_mem_cons.1 h
    obtain ⟨last, hlast⟩ :=
      hd.after_tokens_append origin before (definitions.flatMap tokens)
    rw [List.flatMap_cons, hlast, ih hrest last, List.map_cons]

/-! ## Rows and symbols -/

theorem WellFormed.read_index (h : d.WellFormed) :
    Index.read (Text.ofInt d.index) = .number d.index :=
  Index.read_ofInt h.index

theorem WellFormed.ofBlock?_block (h : d.WellFormed) (origin : Path) :
    Entry.ofBlock? (d.block origin) = some d.entry := by
  simp only [Entry.ofBlock?, block, h.read_index]
  rfl

theorem ofBlocks_map_block {definitions : List Definition}
    (h : ∀ d ∈ definitions, d.WellFormed) (origin : Path) :
    Entry.ofBlocks (definitions.map (·.block origin)) = definitions.map entry := by
  induction definitions with
  | nil => rfl
  | cons d definitions ih =>
    obtain ⟨hd, hrest⟩ := List.forall_mem_cons.1 h
    rw [List.map_cons, List.map_cons, Entry.ofBlocks,
      List.filterMap_cons_some (hd.ofBlock?_block origin)]
    exact congrArg _ (ih hrest)

theorem WellFormed.warning?_block (h : d.WellFormed) (origin : Path) :
    Entry.warning? (d.block origin) = none := by
  simp only [Entry.warning?, block, h.read_index]

theorem symbol_declaration (d : Definition) (origin : Path) :
    (d.declaration origin).symbol = d.symbol := by
  unfold Declaration.symbol declaration
  split <;> split <;> simp_all

theorem native_declaration (d : Definition) (origin : Path) :
    (d.declaration origin).native ↔ d.IsNative := by
  unfold declaration IsNative
  split <;> simp_all [Text.contains_iff]

end Definition
end Optable
