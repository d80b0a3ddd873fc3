import Optable.Proofs.Blank
import Optable.Token.Lexer
/-!
# Lexemes

The spellings of tokens, said without the reader.  `IsLexeme token lexeme rest` holds where
`lexeme` spells `token` and `rest`, the text after it, does not make it any longer.  The main
statement is `next?_eq_some_iff`: reading one token finds a lexeme, and finds every one.
-/

namespace Optable.Token

open Text (StopsAt stopsAt_nil stopsAt_cons stopsAt_dropWhile dropWhile_append takeWhile_append)

/-- No block comment ends inside the text. -/
def NoClose (t : Text) : Prop := ¬ ['*', '/'] <:+: t

/-- What may stand inside a literal: a quote, a line feed or a backslash only after a backslash
that takes it along. -/
inductive Quotable (quote : Char) : Text → Prop
  | nil : Quotable quote []
  | plain {c : Char} {t : Text} (hbackslash : c ≠ '\\') (hfeed : c ≠ '\n') (hquote : c ≠ quote)
      (ht : Quotable quote t) : Quotable quote (c :: t)
  | escaped {c : Char} {t : Text} (ht : Quotable quote t) : Quotable quote ('\\' :: c :: t)

/-- The spellings of a token, in front of the rest of a text. -/
inductive IsLexeme : Token → Text → Text → Prop
  | ident {c : Char} {name rest : Text} (hstart : isIdentStart c) (hname : name.all isIdentPart)
      (hrest : StopsAt isIdentPart rest) : IsLexeme (.ident (c :: name)) (c :: name) rest
  | comment {raw rest : Text} (hraw : NoClose raw) (hstar : raw.head? ≠ some '*') :
      IsLexeme (.comment raw false) ('/' :: '*' :: raw ++ ['*', '/']) rest
  | docComment {body rest : Text} (hraw : NoClose ('*' :: body)) :
      IsLexeme (.comment body true) ('/' :: '*' :: ('*' :: body) ++ ['*', '/']) rest
  /-- A line comment ends in front of the line feed. -/
  | lineComment {body rest : Text} (hbody : '\n' ∉ body) (hrest : StopsAt (· ≠ '\n') rest) :
      IsLexeme .lineComment ('/' :: '/' :: body) rest
  | number {c : Char} {digits rest : Text} (hstart : c.isDigit) (hdigits : digits.all isNumberPart)
      (hrest : StopsAt isNumberPart rest) : IsLexeme .literal (c :: digits) rest
  | quoted {quote : Char} {body rest : Text} (hquote : isQuote quote)
      (hbody : Quotable quote body) : IsLexeme .literal (quote :: body ++ [quote]) rest
  /-- A literal that is not closed on its line ends in front of the line feed. -/
  | openLine {quote : Char} {body rest : Text} (hquote : isQuote quote)
      (hbody : Quotable quote body) : IsLexeme .literal (quote :: body) ('\n' :: rest)
  /-- A literal that is not closed on the last line takes the rest of the text, down to a
  backslash that has nothing to take along. -/
  | openEnd {quote : Char} {body tail : Text} (hquote : isQuote quote)
      (hbody : Quotable quote body) (htail : tail = [] ∨ tail = ['\\']) :
      IsLexeme .literal (quote :: body ++ tail) []
  | punct {c : Char} {rest : Text} (hgap : isGap c = false) (hquote : isQuote c = false)
      (hpart : isIdentPart c = false)
      (hslash : c = '/' → rest.head? ≠ some '*' ∧ rest.head? ≠ some '/') :
      IsLexeme (.punct c) [c] rest

theorem IsLexeme.ne_nil {token : Token} {lexeme rest : Text} (h : IsLexeme token lexeme rest) :
    lexeme ≠ [] := by
  cases h <;> exact List.cons_ne_nil _ _

/-! ## Classes of characters -/

theorem isIdentPart_of_isIdentStart {c : Char} (h : isIdentStart c) : isIdentPart c := by
  simp only [isIdentStart, Bool.or_eq_true, decide_eq_true_eq] at h
  simp only [isIdentPart, Char.isAlphanum, Bool.or_eq_true, decide_eq_true_eq]
  rcases h with h | h
  · exact .inl (.inl h)
  · exact .inr h

theorem isIdentPart_eq_false_iff {c : Char} :
    isIdentPart c = false ↔ isIdentStart c = false ∧ c.isDigit = false := by
  simp only [isIdentPart, isIdentStart, Char.isAlphanum, Bool.or_eq_false_iff]
  exact and_right_comm

theorem isIdentPart_of_isDigit {c : Char} (h : c.isDigit) : isIdentPart c := by
  simp [isIdentPart, Char.isAlphanum, h]

theorem isIdentStart_of_isUpper {c : Char} (h : c.isUpper) : isIdentStart c := by
  have halpha : c.isAlpha := (Bool.or_eq_true _ _).mpr (.inl h)
  rw [isIdentStart, halpha, Bool.true_or]

theorem toNat_of_isDigit {c : Char} (h : c.isDigit) : 48 ≤ c.toNat ∧ c.toNat ≤ 57 := by
  simpa [Char.isDigit, UInt32.le_iff_toNat_le] using h

theorem isBlank_eq_false_of_isDigit {c : Char} (h : c.isDigit) : Text.isBlank c = false := by
  obtain ⟨hlow, hhigh⟩ := toNat_of_isDigit h
  simp only [Text.isBlank, Text.blankRanges, List.any_cons, List.any_nil, Bool.or_false,
    Bool.or_eq_false_iff, Bool.and_eq_false_iff, decide_eq_false_iff_not]
  omega

theorem toNat_of_isAlpha {c : Char} (h : c.isAlpha) :
    65 ≤ c.toNat ∧ c.toNat ≤ 90 ∨ 97 ≤ c.toNat ∧ c.toNat ≤ 122 := by
  have h : (decide (c.val ≥ 'A'.val ∧ c.val ≤ 'Z'.val)
      || (decide (c.val ≥ 'a'.val) && decide (c.val ≤ 'z'.val))) = true := h
  simpa [UInt32.le_iff_toNat_le] using h

theorem not_isIdentStart_of_isDigit {c : Char} (h : c.isDigit) : ¬ isIdentStart c := by
  obtain ⟨hlow, hhigh⟩ := toNat_of_isDigit h
  rw [isIdentStart, Bool.or_eq_true, decide_eq_true_eq]
  rintro (halpha | rfl)
  · have := toNat_of_isAlpha halpha
    omega
  · exact absurd h (by decide)

theorem ne_slash_of_isIdentPart {c : Char} (h : isIdentPart c) : c ≠ '/' := by
  rintro rfl
  exact absurd h (by decide)

theorem isQuote_iff {c : Char} : isQuote c ↔ c = '"' ∨ c = '\'' := by
  simp [isQuote]

theorem not_isQuote_of_isIdentPart {c : Char} (h : isIdentPart c) : ¬ isQuote c := by
  rw [isQuote_iff]
  rintro (rfl | rfl) <;> exact absurd h (by decide)

theorem isGap_iff {c : Char} :
    isGap c ↔ c = ' ' ∨ c = '\t' ∨ c = '\n' ∨ c = '\x0C' ∨ c = '\r' := by
  simp [isGap, or_assoc]

theorem isGap_eq_false_of_isIdentPart {c : Char} (h : isIdentPart c) : isGap c = false := by
  rw [← Bool.not_eq_true, isGap_iff]
  rintro (rfl | rfl | rfl | rfl | rfl) <;> exact absurd h (by decide)

theorem isGap_eq_false_of_isQuote {c : Char} (h : isQuote c) : isGap c = false := by
  rcases isQuote_iff.1 h with rfl | rfl <;> decide

/-! ## Block comments -/

theorem noClose_nil : NoClose [] := by simp [NoClose]

theorem noClose_append {s t : Text} :
    NoClose (s ++ t) ↔
      NoClose s ∧ NoClose t ∧ ¬ (s.getLast? = some '*' ∧ t.head? = some '/') := by
  rw [NoClose, Text.pair_infix_append, not_or, not_or, NoClose, NoClose]

theorem noClose_cons {c : Char} {t : Text} :
    NoClose (c :: t) ↔ ¬ (c = '*' ∧ t.head? = some '/') ∧ NoClose t := by
  have hsingleton : NoClose [c] := by simp [NoClose, List.infix_cons_iff, List.cons_prefix_cons]
  have h := noClose_append (s := [c]) (t := t)
  rw [List.singleton_append, and_iff_right hsingleton] at h
  rw [h, and_comm, List.getLast?_singleton, Option.some.injEq]

/-- A character that belongs to no delimiter keeps its two sides apart. -/
theorem noClose_append_cons {c : Char} (hstar : c ≠ '*') (hslash : c ≠ '/') {s t : Text} :
    NoClose (s ++ c :: t) ↔ NoClose s ∧ NoClose t := by
  simp [noClose_append, noClose_cons, hstar, hslash]

theorem NoClose.of_isInfix {s t : Text} (ht : NoClose t) (hs : s <:+: t) : NoClose s :=
  fun h => ht (h.trans hs)

theorem untilClose?_eq_none_iff {t : Text} : untilClose? t = none ↔ NoClose t := by
  fun_induction untilClose? t with
  | case1 => simp [noClose_nil]
  | case2 t => simp [noClose_cons]
  | case3 c t hne ih =>
    rw [Option.map_eq_none_iff, ih, noClose_cons]
    refine (and_iff_right ?_).symm
    rintro ⟨hc, ht⟩
    obtain ⟨t', rfl⟩ := List.head?_eq_some_iff.1 ht
    exact hne t' hc rfl

instance (t : Text) : Decidable (NoClose t) := decidable_of_iff _ untilClose?_eq_none_iff

theorem untilClose?_append {raw : Text} (h : NoClose raw) (rest : Text) :
    untilClose? (raw ++ '*' :: '/' :: rest) = some (raw, rest) := by
  induction raw with
  | nil => simp [untilClose?]
  | cons c raw ih =>
    obtain ⟨hc, hraw⟩ := noClose_cons.1 h
    rw [List.cons_append, untilClose?, ih hraw]
    · rfl
    · rintro t rfl ht
      rcases raw with _ | ⟨d, raw⟩
      · simp at ht
      · exact hc ⟨rfl, by simpa using (List.cons.inj ht).1⟩

theorem untilClose?_eq_some_iff {t raw rest : Text} :
    untilClose? t = some (raw, rest) ↔ NoClose raw ∧ t = raw ++ '*' :: '/' :: rest := by
  constructor
  · intro h
    refine ⟨?_, untilClose?_eq_some h⟩
    fun_induction untilClose? t generalizing raw with
    | case1 => simp at h
    | case2 t =>
      obtain ⟨rfl, rfl⟩ := by simpa using h
      exact noClose_nil
    | case3 c t hne ih =>
      simp only [Option.map_eq_some_iff, Prod.mk.injEq, Prod.exists] at h
      obtain ⟨raw, rest, h, rfl, rfl⟩ := h
      refine noClose_cons.2 ⟨?_, ih h⟩
      rintro ⟨rfl, hraw⟩
      obtain ⟨raw', rfl⟩ := List.head?_eq_some_iff.1 hraw
      exact hne _ rfl (untilClose?_eq_some h)
  · rintro ⟨hraw, rfl⟩
    exact untilClose?_append hraw rest

/-! ## Quoted literals -/

variable {quote : Char}

theorem ne_of_isQuote (h : isQuote quote) : quote ≠ '\\' ∧ quote ≠ '\n' := by
  rcases isQuote_iff.1 h with rfl | rfl <;> decide

theorem Quotable.append {s t : Text} (hs : Quotable quote s) (ht : Quotable quote t) :
    Quotable quote (s ++ t) := by
  induction hs with
  | nil => exact ht
  | plain hbackslash hfeed hquote _ ih => exact .plain hbackslash hfeed hquote ih
  | escaped _ ih => exact .escaped ih

/-- Reading a literal passes over what may stand inside it. -/
theorem Quotable.afterQuote_append {body : Text} (h : Quotable quote body) (t : Text) :
    afterQuote quote (body ++ t) = afterQuote quote t := by
  induction h with
  | nil => rfl
  | plain hbackslash hfeed hquote _ ih =>
    rw [List.cons_append, afterQuote, if_neg hfeed, if_neg hquote, ih]
    exact fun _ _ hc _ => hbackslash hc
  | escaped _ ih => rw [List.cons_append, List.cons_append, afterQuote, ih]

theorem afterQuote_quote (h : isQuote quote) (t : Text) :
    afterQuote quote (quote :: t) = t := by
  obtain ⟨hbackslash, hfeed⟩ := ne_of_isQuote h
  rw [afterQuote, if_neg hfeed, if_pos rfl]
  exact fun _ _ hc _ => hbackslash hc

theorem afterQuote_feed (quote : Char) (t : Text) :
    afterQuote quote ('\n' :: t) = '\n' :: t := by
  rw [afterQuote, if_pos rfl]
  exact fun _ _ hc _ => absurd hc (by decide)

theorem afterQuote_backslash (quote : Char) : afterQuote quote ['\\'] = [] := by
  rw [afterQuote, if_neg (by decide)]
  · split <;> rfl
  · simp

/-- Where reading a literal ends: behind its quote, in front of a line feed, or with the text. -/
theorem exists_quotable (quote : Char) (t : Text) :
    ∃ body, Quotable quote body ∧
      (t = body ++ quote :: afterQuote quote t ∨
        (∃ rest, afterQuote quote t = '\n' :: rest ∧ t = body ++ '\n' :: rest) ∨
        ∃ tail, afterQuote quote t = [] ∧ (tail = [] ∨ tail = ['\\']) ∧ t = body ++ tail) := by
  fun_induction afterQuote quote t with
  | case1 => exact ⟨[], .nil, .inr (.inr ⟨[], rfl, .inl rfl, rfl⟩)⟩
  | case2 c t ih =>
    obtain ⟨body, hbody, h⟩ := ih
    refine ⟨_, hbody.escaped (c := c), ?_⟩
    simpa using h
  | case3 t => exact ⟨[], .nil, .inr (.inl ⟨t, rfl, rfl⟩)⟩
  | case4 t => exact ⟨[], .nil, .inl rfl⟩
  | case5 c t hescape hfeed hquote ih =>
    by_cases hbackslash : c = '\\'
    · -- A backslash that takes nothing along is the last character.
      subst hbackslash
      rcases t with _ | ⟨d, t⟩
      · exact ⟨[], .nil, .inr (.inr ⟨['\\'], rfl, .inr rfl, rfl⟩)⟩
      · exact absurd rfl (hescape d t rfl)
    · obtain ⟨body, hbody, h⟩ := ih
      refine ⟨_, hbody.plain hbackslash hfeed hquote, ?_⟩
      simpa using h

/-! ## Reading one token -/

theorem next?_slash_star (t : Text) :
    next? ('/' :: '*' :: t) =
      (untilClose? t).map fun (raw, rest) => (ofComment raw, rest) := by
  rw [next?]

theorem next?_slash_slash (t : Text) :
    next? ('/' :: '/' :: t) = some (.lineComment, t.dropWhile (· ≠ '\n')) := by
  rw [next?]

/-- Reading a token that no comment starts goes by its first character. -/
theorem next?_cons {c : Char} {t : Text}
    (h : c = '/' → t.head? ≠ some '*' ∧ t.head? ≠ some '/') :
    next? (c :: t) =
      if isQuote c then some (.literal, afterQuote c t)
      else if isIdentStart c then
        some (.ident (c :: t.takeWhile isIdentPart), t.dropWhile isIdentPart)
      else if c.isDigit then some (.literal, t.dropWhile isNumberPart)
      else some (.punct c, t) := by
  rw [next?]
  · rintro t rfl rfl
    exact (h rfl).1 rfl
  · rintro t rfl rfl
    exact (h rfl).2 rfl

theorem next?_quote {quote : Char} (h : isQuote quote) (t : Text) :
    next? (quote :: t) = some (.literal, afterQuote quote t) := by
  have hslash : quote ≠ '/' := by
    rintro rfl
    exact absurd h (by decide)
  rw [next?_cons (absurd · hslash), if_pos h]

theorem ofComment_of_head?_ne {raw : Text} (h : raw.head? ≠ some '*') :
    ofComment raw = .comment raw false := by
  unfold ofComment
  split
  · exact absurd rfl h
  · rfl

theorem next?_append_of_isLexeme {token : Token} {lexeme rest : Text}
    (h : IsLexeme token lexeme rest) : next? (lexeme ++ rest) = some (token, rest) := by
  cases h with
  | @ident c name _ hstart hname hrest =>
    have hpart : isIdentPart c := isIdentPart_of_isIdentStart hstart
    rw [List.cons_append, next?_cons (absurd · (ne_slash_of_isIdentPart hpart)),
      if_neg (not_isQuote_of_isIdentPart hpart), if_pos hstart, takeWhile_append hname hrest,
      dropWhile_append hname hrest]
  | comment hraw hstar =>
    simp only [List.cons_append, List.append_assoc, List.nil_append, next?_slash_star,
      untilClose?_append hraw, Option.map_some, ofComment_of_head?_ne hstar]
  | docComment hraw =>
    simp only [List.cons_append, List.append_assoc, List.nil_append, next?_slash_star]
    rw [← List.cons_append, untilClose?_append hraw]
    rfl
  | lineComment hbody hrest =>
    rw [List.cons_append, List.cons_append, next?_slash_slash, dropWhile_append _ hrest]
    simpa using fun c hc => ne_of_mem_of_not_mem hc hbody
  | @number c digits _ hstart hdigits hrest =>
    have hpart : isIdentPart c := isIdentPart_of_isDigit hstart
    rw [List.cons_append, next?_cons (absurd · (ne_slash_of_isIdentPart hpart)),
      if_neg (not_isQuote_of_isIdentPart hpart), if_neg (not_isIdentStart_of_isDigit hstart),
      if_pos hstart, dropWhile_append hdigits hrest]
  | quoted hquote hbody =>
    rw [List.cons_append, List.cons_append, next?_quote hquote, List.append_assoc,
      hbody.afterQuote_append, List.singleton_append, afterQuote_quote hquote]
  | openLine hquote hbody =>
    rw [List.cons_append, next?_quote hquote, hbody.afterQuote_append, afterQuote_feed]
  | openEnd hquote hbody htail =>
    rw [List.append_nil, List.cons_append, next?_quote hquote, hbody.afterQuote_append]
    rcases htail with rfl | rfl
    · rfl
    · rw [afterQuote_backslash]
  | punct hgap hquote hpart hslash =>
    obtain ⟨hstart, hdigit⟩ := isIdentPart_eq_false_iff.1 hpart
    rw [List.singleton_append, next?_cons hslash]
    simp [hquote, hstart, hdigit]

theorem isLexeme_ofComment {raw : Text} (h : NoClose raw) (rest : Text) :
    IsLexeme (ofComment raw) ('/' :: '*' :: raw ++ ['*', '/']) rest := by
  unfold ofComment
  split
  · next body => exact .docComment h
  · next hstar =>
    refine .comment h fun hhead => ?_
    obtain ⟨body, rfl⟩ := List.head?_eq_some_iff.1 hhead
    exact hstar body rfl

theorem exists_isLexeme_literal {quote : Char} (h : isQuote quote) (t : Text) :
    ∃ lexeme, quote :: t = lexeme ++ afterQuote quote t ∧
      IsLexeme .literal lexeme (afterQuote quote t) := by
  obtain ⟨body, hbody, ht | ⟨rest, hrest, ht⟩ | ⟨tail, hrest, htail, ht⟩⟩ := exists_quotable quote t
  · exact ⟨quote :: body ++ [quote], by simpa using ht, .quoted h hbody⟩
  · rw [hrest]
    exact ⟨quote :: body, by simp [ht], .openLine h hbody⟩
  · rw [hrest]
    exact ⟨quote :: body ++ tail, by simp [ht], .openEnd h hbody htail⟩

/-- Reading one token finds a lexeme at the start of the text, and any that is there. -/
theorem next?_eq_some_iff {t rest : Text} {token : Token} (ht : StopsAt isGap t) :
    next? t = some (token, rest) ↔ ∃ lexeme, t = lexeme ++ rest ∧ IsLexeme token lexeme rest := by
  constructor
  · intro h
    unfold next? at h
    split at h
    · simp at h
    · next t =>
      simp only [Option.map_eq_some_iff, Prod.mk.injEq, Prod.exists] at h
      obtain ⟨raw, rest, h, rfl, rfl⟩ := h
      obtain ⟨hraw, rfl⟩ := untilClose?_eq_some_iff.1 h
      exact ⟨_, by simp, isLexeme_ofComment hraw rest⟩
    · next t =>
      simp only [Option.some.injEq, Prod.mk.injEq] at h
      obtain ⟨rfl, rfl⟩ := h
      refine ⟨'/' :: '/' :: t.takeWhile (· ≠ '\n'), by simp, .lineComment ?_ ?_⟩
      · exact fun hfeed => absurd (List.all_eq_true.1 List.all_takeWhile _ hfeed) (by decide)
      · exact stopsAt_dropWhile _ _
    · next c t hstar hslash =>
      split at h
      · next hquote =>
        obtain ⟨rfl, rfl⟩ := by simpa using h
        exact exists_isLexeme_literal hquote t
      split at h
      · next hquote hstart =>
        obtain ⟨rfl, rfl⟩ := by simpa using h
        refine ⟨c :: t.takeWhile isIdentPart, by simp, .ident hstart ?_ (stopsAt_dropWhile _ _)⟩
        exact List.all_takeWhile
      split at h
      · next hquote hstart hdigit =>
        obtain ⟨rfl, rfl⟩ := by simpa using h
        refine ⟨c :: t.takeWhile isNumberPart, by simp, .number hdigit ?_ (stopsAt_dropWhile _ _)⟩
        exact List.all_takeWhile
      · next hquote hstart hdigit =>
        obtain ⟨rfl, rfl⟩ := by simpa using h
        refine ⟨[c], rfl, .punct (stopsAt_cons.1 ht) (by simpa using hquote) ?_ ?_⟩
        · exact isIdentPart_eq_false_iff.2 ⟨by simpa using hstart, by simpa using hdigit⟩
        · rintro rfl
          constructor <;> intro hhead <;> obtain ⟨t', rfl⟩ := List.head?_eq_some_iff.1 hhead
          · exact hstar t' rfl rfl
          · exact hslash t' rfl rfl
  · rintro ⟨lexeme, rfl, h⟩
    exact next?_append_of_isLexeme h

end Optable.Token
