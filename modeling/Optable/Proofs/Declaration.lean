import Optable.Declaration
import Optable.Proofs.Partition
/-!
# Declarations among tokens

What the two shapes of a declaration give wherever they stand.  No declaration starts inside one of
them, so reading goes on behind the shape as if it started there.  Whatever is declared has a
symbol that could be declared again.
-/

namespace Optable

open Token (ofText isIdent isIdentPart ofText_ident_append_cons ofText_gap_cons ofText_punct_cons)

namespace Symbol

theorem afterMarker?_eq_none {t : Text} (h : '\\' ∉ t) : afterMarker? t = none := by
  induction t with
  | nil => rfl
  | cons c t ih =>
    rw [List.mem_cons, not_or] at h
    obtain ⟨hc, ht⟩ := h
    rw [afterMarker?, ih ht]
    exact if_neg fun hmark => hc hmark.1.symm

/-- A name that is an identifier is not looked into for a marker or a number sign. -/
theorem ofName_of_isIdent {name : Text} (h : isIdent name) : ofName name = name ++ suffix := by
  have hparts := List.all_eq_true.1 (Token.all_isIdentPart_of_isIdent h)
  have hbackslash : '\\' ∉ name := fun hmem => absurd (hparts _ hmem) (by decide)
  have hsign (base : Text) : name ≠ '#' :: base := by
    rintro rfl
    exact absurd (hparts '#' (by simp)) (by decide)
  rw [ofName, internalName, afterMarker?_eq_none hbackslash, Option.getD_none, ofInternalName]
  exact hsign

end Symbol

namespace Declaration

/-- What tokens declare a primitive: those of a function of the environment alone, up to the end of
its parameters, or those of a macro call, up to the comma behind the primitive. -/
inductive Shape where
  | function (name parameter : Text)
  | macroCall (callee argument : Text)

namespace Shape

def tokens : Shape → List Token
  | .function name parameter =>
    [.ident "void".toList, .ident name, .punct '(', .ident "pEnv".toList, .ident parameter,
      .punct ')']
  | .macroCall callee argument => [.ident callee, .punct '(', .ident argument, .punct ',']

/-- The primitive that a shape declares. -/
def name : Shape → Text
  | .function name _ => name
  | .macroCall _ argument => argument

def kind : Shape → DeclarationKind
  | .function .. => .function
  | .macroCall .. => .macroCall

/-- Whether the names in a shape are those of a primitive and of a macro that declares one. -/
def WellFormed : Shape → Prop
  | .function name _ => isPrimitive name
  | .macroCall callee argument => isMacro callee ∧ isPrimitive argument

instance : ∀ shape : Shape, Decidable shape.WellFormed
  | .function name _ => inferInstanceAs (Decidable (isPrimitive name))
  | .macroCall callee argument =>
    inferInstanceAs (Decidable (isMacro callee ∧ isPrimitive argument))

/-- The declaration that a shape makes, given whether the token in front marks a function native. -/
def declaration (origin : Path) (marked : Bool) (shape : Shape) : Declaration :=
  ⟨shape.name, shape.kind, shape.kind = .function && marked, origin⟩

end Shape

variable {origin : Path} {before : Option Token} {tokens : List Token} {shape : Shape}

/-- A function of the environment alone, with an empty body. -/
def functionTokens (name : Text) : List Token :=
  [.ident "void".toList, .ident name, .punct '(', .ident "pEnv".toList, .ident "env".toList,
    .punct ')', .punct '{', .punct '}']

/-- A macro call with a primitive and one more argument. -/
def macroTokens (callee argument : Text) : List Token :=
  [.ident callee, .punct '(', .ident argument, .punct ',', .ident ['x'], .punct ')']

/-! ## How the shapes are written -/

theorem ofText_function_append {name : Text} (h : isIdent name) (t : Text) :
    ofText ("void ".toList ++ name ++ "(pEnv env)\n\x7b\n\x7d\n".toList ++ t) =
      functionTokens name ++ ofText t := by
  have htext : "void ".toList ++ name ++ "(pEnv env)\n\x7b\n\x7d\n".toList ++ t =
      "void".toList ++ ' ' :: (name ++ '(' :: ("pEnv".toList ++ ' ' :: ("env".toList ++
        ')' :: '\n' :: '\x7b' :: '\n' :: '\x7d' :: '\n' :: t))) := by simp
  rw [htext, ofText_ident_append_cons (by decide) (by decide),
    ofText_gap_cons (by decide), ofText_ident_append_cons h (by decide),
    ofText_punct_cons (by decide), ofText_ident_append_cons (by decide) (by decide),
    ofText_gap_cons (by decide), ofText_ident_append_cons (by decide) (by decide),
    ofText_punct_cons (by decide), ofText_gap_cons (by decide),
    ofText_punct_cons (by decide), ofText_gap_cons (by decide),
    ofText_punct_cons (by decide), ofText_gap_cons (by decide)]
  rfl

/-- The name of a macro is an identifier. -/
theorem isIdent_of_isMacro {callee : Text} (h : isMacro callee) : isIdent callee := by
  match callee with
  | [] => exact absurd h (by decide)
  | [c] => exact absurd h (by simp [isMacro])
  | c :: e :: t =>
    simp only [isMacro, Bool.and_eq_true] at h
    have hstart : Token.isIdentStart c := Token.isIdentStart_of_isUpper h.1
    have hname : (e :: t).all Token.isIdentPart := by
      refine List.all_eq_true.2 fun b hb => ?_
      have hb := List.all_eq_true.1 h.2 b hb
      simp only [Bool.or_eq_true, decide_eq_true_eq] at hb
      rcases hb with (hupper | hdigit) | rfl
      · exact Token.isIdentPart_of_isIdentStart (Token.isIdentStart_of_isUpper hupper)
      · exact Token.isIdentPart_of_isDigit hdigit
      · decide
    rw [isIdent, hstart, hname]
    rfl

theorem ofText_macroCall_append {callee name : Text} (hcallee : isMacro callee)
    (h : isIdent name) (t : Text) :
    ofText (callee ++ "(".toList ++ name ++ ", x)\n".toList ++ t) =
      macroTokens callee name ++ ofText t := by
  have htext : callee ++ "(".toList ++ name ++ ", x)\n".toList ++ t =
      callee ++ '(' :: (name ++ ',' :: ' ' :: (['x'] ++ ')' :: '\n' :: t)) := by simp
  rw [htext, ofText_ident_append_cons (isIdent_of_isMacro hcallee) (by decide),
    ofText_punct_cons (by decide), ofText_ident_append_cons h (by decide),
    ofText_punct_cons (by decide), ofText_gap_cons (by decide),
    ofText_ident_append_cons (by decide) (by decide), ofText_punct_cons (by decide),
    ofText_gap_cons (by decide)]
  rfl

/-! ## Where a shape is found -/

theorem functionName?_eq_some_iff {name : Text} :
    functionName? tokens = some name ↔
      isPrimitive name ∧ ∃ parameter, (Shape.function name parameter).tokens <+: tokens := by
  constructor
  · intro h
    unfold functionName? at h
    split at h
    · next result found type parameter rest =>
      split at h
      · next hnames =>
        obtain ⟨rfl, rfl, hprimitive⟩ := hnames
        obtain rfl := Option.some.inj h
        exact ⟨hprimitive, parameter, rest, rfl⟩
      · cases h
    · cases h
  · rintro ⟨hprimitive, parameter, rest, rfl⟩
    exact if_pos ⟨rfl, rfl, hprimitive⟩

theorem macroArgument?_eq_some_iff {name : Text} :
    macroArgument? tokens = some name ↔
      ∃ callee, isMacro callee ∧ isPrimitive name ∧
        (Shape.macroCall callee name).tokens <+: tokens := by
  constructor
  · intro h
    unfold macroArgument? at h
    split at h
    · next callee argument rest =>
      split at h
      · next hnames =>
        obtain rfl := Option.some.inj h
        exact ⟨callee, hnames.1, hnames.2, rest, rfl⟩
      · cases h
    · cases h
  · rintro ⟨callee, hcallee, hprimitive, rest, rfl⟩
    exact if_pos ⟨hcallee, hprimitive⟩

/-- A declaration is found where the tokens start with one of its shapes, and only there. -/
theorem next?_eq_some_iff {d : Declaration} :
    next? origin before tokens = some d ↔
      ∃ shape : Shape, shape.WellFormed ∧ shape.tokens <+: tokens ∧
        d = shape.declaration origin (before.any marksNative) := by
  constructor
  · intro h
    unfold next? at h
    split at h
    · next name hname =>
      obtain ⟨hprimitive, parameter, hstarts⟩ := functionName?_eq_some_iff.1 hname
      exact ⟨.function name parameter, hprimitive, hstarts, (Option.some.inj h).symm⟩
    · obtain ⟨name, hname, rfl⟩ := Option.map_eq_some_iff.1 h
      obtain ⟨callee, hcallee, hprimitive, hstarts⟩ := macroArgument?_eq_some_iff.1 hname
      exact ⟨.macroCall callee name, ⟨hcallee, hprimitive⟩, hstarts, rfl⟩
  · rintro ⟨shape, hshape, hstarts, rfl⟩
    cases shape with
    | function name parameter =>
      have hname := functionName?_eq_some_iff.2 ⟨hshape, parameter, hstarts⟩
      rw [next?, hname]
      rfl
    | macroCall callee argument =>
      obtain ⟨rest, rfl⟩ := hstarts
      have hname : macroArgument? ((Shape.macroCall callee argument).tokens ++ rest) =
          some argument := if_pos hshape
      have hnone : functionName? ((Shape.macroCall callee argument).tokens ++ rest) = none := rfl
      rw [next?, hnone]
      exact congrArg (Option.map _) hname

/-! ## What the shapes declare -/

theorem after_cons_of_next?_eq_none {token : Token} {tokens : List Token}
    (h : next? origin before (token :: tokens) = none) :
    after origin before (token :: tokens) = after origin (some token) tokens := by
  rw [after, h]
  rfl

theorem after_comment_cons (body : Text) (doc : Bool) (tokens : List Token) :
    after origin before (.comment body doc :: tokens) =
      after origin (some (.comment body doc)) tokens :=
  after_cons_of_next?_eq_none rfl

/-- Of the token before, only the native marker matters. -/
theorem after_eq_of_any_eq {other : Option Token}
    (h : before.any marksNative = other.any marksNative) :
    after origin before tokens = after origin other tokens := by
  cases tokens with
  | nil => rfl
  | cons token tokens => rw [after, after, next?, next?, h]

/-- The tokens of a shape make its declaration, and no other declaration begins inside it. -/
theorem after_shape_append (hshape : shape.WellFormed) (behind : List Token) :
    after origin before (shape.tokens ++ behind) =
      shape.declaration origin (before.any marksNative) :: ofTokens origin behind := by
  have hrest (mark : Char) : after origin (some (.punct mark)) behind = ofTokens origin behind :=
    after_eq_of_any_eq rfl
  cases shape with
  | function name parameter =>
    have hname : isPrimitive name := hshape
    simp [Shape.tokens, Shape.declaration, Shape.name, Shape.kind, after, next?, functionName?,
      macroArgument?, hname, hrest]
  | macroCall callee argument =>
    obtain ⟨hcallee, hargument⟩ := hshape
    simp [Shape.tokens, Shape.declaration, Shape.name, Shape.kind, after, next?, functionName?,
      macroArgument?, hcallee, hargument, hrest]

theorem after_functionTokens_append {name : Text} (h : isPrimitive name) (tokens : List Token) :
    after origin before (functionTokens name ++ tokens) =
      ⟨name, .function, before.any marksNative, origin⟩ ::
        after origin (some (.punct '}')) tokens := by
  have hshape : (Shape.function name "env".toList).WellFormed := h
  have htokens : functionTokens name ++ tokens =
      (Shape.function name "env".toList).tokens ++ .punct '{' :: .punct '}' :: tokens := rfl
  rw [htokens, after_shape_append hshape, ofTokens, after_cons_of_next?_eq_none rfl,
    after_cons_of_next?_eq_none rfl]
  rfl

theorem after_macroTokens_append {callee argument : Text} (hcallee : isMacro callee)
    (h : isPrimitive argument) (tokens : List Token) :
    after origin before (macroTokens callee argument ++ tokens) =
      ⟨argument, .macroCall, false, origin⟩ :: after origin (some (.punct ')')) tokens := by
  have hshape : (Shape.macroCall callee argument).WellFormed := ⟨hcallee, h⟩
  have htokens : macroTokens callee argument ++ tokens =
      (Shape.macroCall callee argument).tokens ++ .ident ['x'] :: .punct ')' :: tokens := rfl
  rw [htokens, after_shape_append hshape, ofTokens, after_cons_of_next?_eq_none rfl,
    after_cons_of_next?_eq_none rfl]
  rfl

/-! ## Symbols -/

/-- Every symbol ends with an underscore. -/
theorem getLast?_ofName (name : Text) : (Symbol.ofName name).getLast? = some '_' := by
  unfold Symbol.ofName Symbol.ofInternalName
  split
  · rw [List.getLast?_append]
    rfl
  · rw [List.getLast?_append]
    rfl

/-- Identifiers are made of word characters. -/
theorem all_isWord_of_all_isIdentPart {t : Text} (h : t.all Token.isIdentPart) :
    t.all Text.isWord := by
  refine List.all_eq_true.2 fun c hc => ?_
  have hpart : (c.isAlphanum || c = '_') = true := List.all_eq_true.1 h c hc
  rw [Text.isWord, hpart, Bool.true_or]

theorem isPrimitive_ofName {name : Text} (hlength : 1 < (Symbol.ofName name).length)
    (hparts : (Symbol.ofName name).all Token.isIdentPart) :
    isPrimitive (Symbol.ofName name) := by
  simp only [isPrimitive, hlength, all_isWord_of_all_isIdentPart hparts, getLast?_ofName,
    decide_true, Bool.and_self]

/-- The symbols that a prototype can declare so that it is found: identifiers with the name of a
primitive. -/
structure IsSymbol (s : Text) : Prop where
  ident : isIdent s
  primitive : isPrimitive s

theorem isSymbol_ofName {name : Text} (h : isIdent name) : IsSymbol (Symbol.ofName name) := by
  have hident : isIdent (Symbol.ofName name) := by
    rw [Symbol.ofName_of_isIdent h]
    exact Token.isIdent_append h (by decide)
  refine ⟨hident, isPrimitive_ofName ?_ (Token.all_isIdentPart_of_isIdent hident)⟩
  rw [Symbol.ofName_of_isIdent h, List.length_append]
  have hpos : 0 < name.length := by
    rcases name with _ | ⟨c, name⟩
    · exact absurd h (by decide)
    · simp
  have hsuffix : Symbol.suffix.length = 1 := rfl
  omega

theorem Shape.spec_name (h : shape.WellFormed) :
    .ident shape.name ∈ shape.tokens ∧ isPrimitive shape.name := by
  cases shape with
  | function name parameter => exact ⟨by simp [Shape.tokens, Shape.name], h⟩
  | macroCall callee argument => exact ⟨by simp [Shape.tokens, Shape.name], h.2⟩

theorem Shape.symbol_declaration (shape : Shape) (origin : Path) (marked : Bool) :
    (shape.declaration origin marked).symbol = shape.name := by
  cases shape <;> rfl

theorem isSymbol_of_next? {d : Declaration}
    (hidents : ∀ name, .ident name ∈ tokens → isIdent name)
    (h : next? origin before tokens = some d) : IsSymbol d.symbol := by
  obtain ⟨shape, hshape, hstarts, rfl⟩ := next?_eq_some_iff.1 h
  obtain ⟨hmem, hprimitive⟩ := shape.spec_name hshape
  rw [shape.symbol_declaration]
  exact ⟨hidents _ (hstarts.subset hmem), hprimitive⟩

theorem isSymbol_of_mem_after {tokens : List Token} {d : Declaration}
    (hidents : ∀ name, .ident name ∈ tokens → isIdent name)
    (h : d ∈ after origin before tokens) : IsSymbol d.symbol := by
  induction tokens generalizing before with
  | nil => simp [after] at h
  | cons token tokens ih =>
    rw [after, List.mem_append, Option.mem_toList] at h
    rcases h with h | h
    · exact isSymbol_of_next? hidents h
    · exact ih (fun name hname => hidents name (List.mem_cons_of_mem _ hname)) h

end Declaration
end Optable
