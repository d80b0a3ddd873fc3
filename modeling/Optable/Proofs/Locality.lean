import Optable.Proofs.Blank
import Optable.Proofs.Declaration
/-!
# Declarations between other tokens

The tokens of a declaration declare the same wherever they stand, and the tokens on both sides of
them declare what they would declare alone.  For no declaration begins in front of another one and
ends inside it (`Shape.isPrefix_of_isPrefix_append`), and none begins inside another one.
-/

namespace Optable.Declaration

variable {origin : Path} {before : Option Token} {shape : Shape}

/-! ## No declaration reaches into another one -/

/-- What is left of a shape behind its first tokens does not begin another one: at some place, one
of them has a mark where the other one has a name or another mark. -/
theorem Shape.eq_nil_of_isPrefix {other : Shape} {rest behind : List Token}
    (hsuffix : rest <:+ other.tokens) (hne : rest ≠ other.tokens)
    (hstarts : rest <+: shape.tokens ++ behind) : rest = [] := by
  cases other with
  | function name parameter =>
    simp only [tokens, List.suffix_cons_iff, List.suffix_nil] at hsuffix
    rcases hsuffix with rfl | rfl | rfl | rfl | rfl | rfl | rfl
    · exact absurd rfl hne
    all_goals cases shape <;> simp [tokens, List.cons_prefix_cons] at hstarts ⊢
  | macroCall callee argument =>
    simp only [tokens, List.suffix_cons_iff, List.suffix_nil] at hsuffix
    rcases hsuffix with rfl | rfl | rfl | rfl | rfl
    · exact absurd rfl hne
    all_goals cases shape <;> simp [tokens, List.cons_prefix_cons] at hstarts ⊢

/-- A declaration that begins in front of the tokens of another one ends in front of them. -/
theorem Shape.isPrefix_of_isPrefix_append {other : Shape}
    {front behind : List Token} (hne : front ≠ [])
    (h : other.tokens <+: front ++ (shape.tokens ++ behind)) : other.tokens <+: front := by
  rcases List.prefix_or_prefix_of_prefix h (List.prefix_append front _) with hfront | ⟨rest, hrest⟩
  · exact hfront
  · have hstarts : rest <+: shape.tokens ++ behind := by
      rwa [← hrest, List.prefix_append_right_inj] at h
    have hproper : rest ≠ other.tokens := by
      rintro rfl
      exact hne (List.append_left_eq_self.1 hrest)
    have hnil := eq_nil_of_isPrefix ⟨front, hrest⟩ hproper hstarts
    have hwhole : other.tokens = front := by rw [← hrest, hnil, List.append_nil]
    exact ⟨[], by rw [List.append_nil, hwhole]⟩

/-- What is found in front of the tokens of a declaration is found without them. -/
theorem next?_append_shape {front : List Token} (hne : front ≠ [])
    (behind : List Token) :
    next? origin before (front ++ (shape.tokens ++ behind)) = next? origin before front := by
  ext d
  rw [next?_eq_some_iff, next?_eq_some_iff]
  refine exists_congr fun other => and_congr_right fun _ => and_congr_left fun _ => ?_
  constructor
  · exact Shape.isPrefix_of_isPrefix_append hne
  · exact fun h => h.trans (List.prefix_append _ _)

/-! ## The declarations on both sides -/

theorem after_append_shape (front behind : List Token) :
    after origin before (front ++ (shape.tokens ++ behind)) =
      after origin before front ++
        after origin (front.getLast?.or before) (shape.tokens ++ behind) := by
  induction front generalizing before with
  | nil => rfl
  | cons token front ih =>
    have hnext : next? origin before (token :: (front ++ (shape.tokens ++ behind))) =
        next? origin before (token :: front) :=
      next?_append_shape (List.cons_ne_nil token front) behind
    have hlast : (token :: front).getLast?.or before = front.getLast?.or (some token) := by
      cases front <;> simp [List.getLast?_cons]
    rw [List.cons_append, after, after, hnext, ih, hlast, List.append_assoc]

theorem marksNative_iff {token : Token} :
    marksNative token ↔ ∃ body doc, token = .comment body doc ∧ nativeMarker <:+: body := by
  cases token <;> simp [marksNative, Text.contains_iff]

/-- Between any other tokens, the tokens of a declaration make that declaration, and it is native
exactly if it is that of a function right behind a comment with the native marker.  The tokens in
front of it and behind it make the declarations that they would make alone. -/
theorem ofTokens_append_shape_append (hshape : shape.WellFormed) (origin : Path)
    (front behind : List Token) :
    ∃ d : Declaration,
      d.token = shape.name ∧ d.kind = shape.kind ∧ d.origin = origin ∧
      (d.native ↔ shape.kind = .function ∧
        ∃ body doc, front.getLast? = some (.comment body doc) ∧ nativeMarker <:+: body) ∧
      ofTokens origin (front ++ shape.tokens ++ behind) =
        ofTokens origin front ++ [d] ++ ofTokens origin behind := by
  refine ⟨shape.declaration origin (front.getLast?.any marksNative), rfl, rfl, rfl, ?_, ?_⟩
  · have hmarked : front.getLast?.any marksNative ↔
        ∃ body doc, front.getLast? = some (.comment body doc) ∧ nativeMarker <:+: body := by
      cases front.getLast? with
      | none => simp
      | some token => simpa using marksNative_iff
    rw [← hmarked, Shape.declaration, Bool.and_eq_true, decide_eq_true_eq]
  · rw [ofTokens, List.append_assoc, after_append_shape, after_shape_append hshape,
      Option.or_none, List.append_assoc]
    rfl

/-- A native function between the start of one macro call and the whole of another one.  Its own
name could be that of a macro, and its parameter is called like its result. -/
theorem ofTokens_append_sum_append :
    let path : Path := ⟨"t.c".toList⟩
    let sum := Shape.function "SUM_".toList "void".toList
    let front := [.ident "MAX".toList, .punct '(', .comment "* [NATIVE]".toList true]
    let behind := [.ident "MIN".toList, .punct '(', .ident "min_".toList, .punct ',']
    sum.WellFormed ∧
      ∃ d : Declaration, d.token = "SUM_".toList ∧ d.native ∧
        ofTokens path (front ++ sum.tokens ++ behind) =
          [d, ⟨"min_".toList, .macroCall, false, path⟩] := by
  intro path sum front behind
  have hsum : sum.WellFormed := by decide
  obtain ⟨d, htoken, -, -, hnative, htokens⟩ :=
    ofTokens_append_shape_append hsum path front behind
  have hmarker : nativeMarker <:+: "* [NATIVE]".toList := Text.contains_iff.1 (by decide)
  refine ⟨hsum, d, htoken, hnative.2 ⟨rfl, _, _, rfl, hmarker⟩, ?_⟩
  rw [htokens]
  rfl

end Optable.Declaration
