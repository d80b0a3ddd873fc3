import Optable.Artifact
import Optable.Proofs.Lexeme
/-!
# Where the literals of a row end

A row writes name, signature and description between quotes.  A backslash of the text is not
escaped, so it may take along what follows it: another character of the text, the backslash that
escapes a quote, or the quote that ends the literal.  The main statement says exactly when the
literal of a field ends where the row ends it.
-/

namespace Optable

open Token (Quotable)

namespace Literal

/-- How many backslashes a text ends with. -/
def backslashesAtEnd (t : Text) : Nat := (t.reverse.takeWhile (· = '\\')).length

/-- The backslashes in front of each quote, and those at the end, are even in number. -/
def Paired (t : Text) : Prop :=
  ∀ before after : Text, t = before ++ after → after = [] ∨ after.head? = some '"' →
    backslashesAtEnd before % 2 = 0

/-! ## Backslashes in pairs -/

theorem backslashesAtEnd_append (s t : Text) :
    backslashesAtEnd (s ++ t) =
      if backslashesAtEnd t = t.length then t.length + backslashesAtEnd s
      else backslashesAtEnd t := by
  unfold backslashesAtEnd
  rw [List.reverse_append, List.takeWhile_append, List.length_reverse]
  split
  · rw [List.length_append, List.length_reverse]
  · rfl

theorem backslashesAtEnd_concat (t : Text) (c : Char) :
    backslashesAtEnd (t ++ [c]) = if c = '\\' then backslashesAtEnd t + 1 else 0 := by
  by_cases hc : c = '\\' <;> simp [backslashesAtEnd, hc]

/-- A text in front that ends with backslashes in pairs leaves the others odd or even. -/
theorem backslashesAtEnd_append_mod {s : Text} (hs : backslashesAtEnd s % 2 = 0) (t : Text) :
    backslashesAtEnd (s ++ t) % 2 = backslashesAtEnd t % 2 := by
  rw [backslashesAtEnd_append]
  split <;> omega

/-- A text in front whose own backslashes are paired does not matter. -/
theorem paired_append {s t : Text} (hs : Paired s) : Paired (s ++ t) ↔ Paired t := by
  have heven : backslashesAtEnd s % 2 = 0 := hs s [] (List.append_nil s).symm (.inl rfl)
  have happend := backslashesAtEnd_append_mod heven
  constructor
  · intro h before after ht hafter
    rw [← happend]
    exact h (s ++ before) after (by rw [ht, List.append_assoc]) hafter
  · intro h before after ht hafter
    rcases List.append_eq_append_iff.1 ht with ⟨mid, rfl, rfl⟩ | ⟨mid, rfl, rfl⟩
    · rw [happend]
      exact h mid after rfl hafter
    · -- The split lies inside `s`, whose own condition speaks of it.
      refine hs before mid rfl ?_
      rcases mid with _ | ⟨c, mid⟩
      · exact .inl rfl
      · exact .inr (by simpa using hafter)

theorem paired_nil : Paired [] := by
  intro before after h _
  rw [(List.append_eq_nil_iff.1 h.symm).1]
  rfl

theorem paired_singleton {c : Char} (hc : c ≠ '\\') : Paired [c] := by
  intro before after h _
  rcases before with _ | ⟨d, before⟩
  · rfl
  · simp only [List.cons_append, List.cons.injEq, List.nil_eq, List.append_eq_nil_iff] at h
    obtain ⟨rfl, rfl, _⟩ := h
    simp [backslashesAtEnd, hc]

theorem paired_escape {c : Char} (hc : c ≠ '"') : Paired ['\\', c] := by
  intro before after h hafter
  rcases before with _ | ⟨d, _ | ⟨e, before⟩⟩
  · rfl
  · simp only [List.cons_append, List.cons.injEq, List.nil_append] at h
    simp [← h.2, hc] at hafter
  · simp only [List.cons_append, List.cons.injEq, List.nil_eq, List.append_eq_nil_iff] at h
    obtain ⟨rfl, rfl, rfl, _⟩ := h
    by_cases hc : c = '\\' <;> simp [backslashesAtEnd, hc]

theorem paired_cons {c : Char} {t : Text} (hc : c ≠ '\\') : Paired (c :: t) ↔ Paired t :=
  paired_append (paired_singleton hc)

theorem paired_backslash {c : Char} {t : Text} :
    Paired ('\\' :: c :: t) ↔ c ≠ '"' ∧ Paired t := by
  by_cases hc : c = '"'
  · subst hc
    refine iff_of_false (fun h => ?_) fun h => h.1 rfl
    exact absurd (h ['\\'] ('"' :: t) rfl (.inr rfl)) (by decide)
  · rw [and_iff_right hc]
    exact paired_append (paired_escape hc)

theorem not_paired_singleton : ¬ Paired ['\\'] :=
  fun h => absurd (h ['\\'] [] rfl (.inl rfl)) (by decide)

/-! ## What an escaped text leaves open -/

theorem quotable_cons {quote c : Char} {t : Text} (hc : c ≠ '\\') :
    Quotable quote (c :: t) ↔ c ≠ '\n' ∧ c ≠ quote ∧ Quotable quote t := by
  constructor
  · intro h
    cases h with
    | plain _ hfeed hquote ht => exact ⟨hfeed, hquote, ht⟩
    | escaped => exact absurd rfl hc
  · rintro ⟨hfeed, hquote, ht⟩
    exact .plain hc hfeed hquote ht

theorem quotable_escaped {quote c : Char} {t : Text} :
    Quotable quote ('\\' :: c :: t) ↔ Quotable quote t := by
  constructor
  · intro h
    cases h with
    | plain hc => exact absurd rfl hc
    | escaped ht => exact ht
  · exact .escaped

theorem not_quotable_backslash {quote : Char} : ¬ Quotable quote ['\\'] := by
  intro h
  cases h with
  | plain hc => exact hc rfl

theorem escape_cons (c : Char) (t : Text) : escape (c :: t) = escapeChar c ++ escape t :=
  List.flatMap_cons

theorem escapeChar_of_ne {c : Char} (hquote : c ≠ '"') (hfeed : c ≠ '\n') :
    escapeChar c = [c] := by
  unfold escapeChar
  split
  · exact absurd rfl hquote
  · exact absurd rfl hfeed
  · rfl

/-- A backslash that takes a quote along leaves the quote's own backslash escaped. -/
theorem not_quotable_escape_quote (t : Text) : ¬ Quotable '"' (escape ('\\' :: '"' :: t)) := by
  intro h
  have h : Quotable '"' ('\\' :: '\\' :: '"' :: escape t) := h
  obtain ⟨_, hquote, _⟩ := (quotable_cons (by decide)).1 (quotable_escaped.1 h)
  exact hquote rfl

theorem quotable_escape_backslash {c : Char} {t : Text} (hc : c ≠ '"') :
    Quotable '"' (escape ('\\' :: c :: t)) ↔ Quotable '"' (escape t) := by
  rw [escape_cons, escape_cons, escapeChar_of_ne (by decide) (by decide), List.singleton_append]
  by_cases hfeed : c = '\n'
  · subst hfeed
    change Quotable '"' ('\\' :: '\\' :: 'n' :: escape t) ↔ _
    rw [quotable_escaped, quotable_cons (by decide)]
    simp
  · rw [escapeChar_of_ne hc hfeed, List.singleton_append, quotable_escaped]

theorem quotable_escape_cons {c : Char} {t : Text} (hc : c ≠ '\\') :
    Quotable '"' (escape (c :: t)) ↔ Quotable '"' (escape t) := by
  rw [escape_cons]
  by_cases hquote : c = '"'
  · subst hquote
    exact quotable_escaped
  · by_cases hfeed : c = '\n'
    · subst hfeed
      exact quotable_escaped
    · rw [escapeChar_of_ne hquote hfeed, List.singleton_append, quotable_cons hc]
      simp [hquote, hfeed]

/-- An escaped text may stand inside a literal if and only if its backslashes are paired. -/
theorem quotable_escape_iff (t : Text) : Quotable '"' (escape t) ↔ Paired t := by
  fun_induction unescape t with
  | case1 => exact iff_of_true .nil paired_nil
  | case2 t => exact iff_of_false (not_quotable_escape_quote t) (by simp [paired_backslash])
  | case3 t ih =>
    rw [quotable_escape_backslash (by decide), ih, paired_backslash, and_iff_right (by decide)]
  | case4 c t hquote _ ih =>
    have hc : c ≠ '"' := hquote
    rw [quotable_escape_backslash hc, ih, paired_backslash, and_iff_right hc]
  | case5 c t _ _ hbackslash ih =>
    by_cases hc : c = '\\'
    · -- A backslash with nothing to take along is the last character.
      subst hc
      rcases t with _ | ⟨d, t⟩
      · exact iff_of_false not_quotable_backslash not_paired_singleton
      · exact absurd rfl (hbackslash d t rfl)
    · rw [quotable_escape_cons hc, ih, paired_cons hc]

/-- Reading a literal from its opening quote ends at the quote that closes it if and only if the
backslashes of the text between them are paired. -/
theorem afterQuote_escape_eq_iff {t rest : Text} (hrest : rest ≠ [])
    (hfeed : rest.head? ≠ some '\n') :
    Token.afterQuote '"' (escape t ++ '"' :: rest) = rest ↔ Paired t := by
  rw [← quotable_escape_iff]
  constructor
  · intro h
    obtain ⟨body, hbody, ht⟩ := Token.exists_quotable '"' (escape t ++ '"' :: rest)
    rw [h] at ht
    rcases ht with ht | ⟨tail, htail, -⟩ | ⟨tail, htail, -⟩
    · rwa [List.append_cancel_right ht]
    · exact absurd (congrArg List.head? htail) hfeed
    · exact absurd htail hrest
  · intro h
    rw [h.afterQuote_append, Token.afterQuote_quote (by decide)]

end Literal

/-! ## The literals of a row -/

/-- The fields that a row writes between quotes. -/
inductive QuotedField where
  | name
  | signature
  | description
  deriving DecidableEq

namespace QuotedField

/-- The field as the doc block has it. -/
def ofBlock (block : DocBlock) : QuotedField → Text
  | name => block.header.name
  | signature => block.header.signature
  | description => block.description

/-- The field as the row writes it. -/
def ofEntry (e : Entry) : QuotedField → Text
  | name => e.name
  | signature => e.signature
  | description => e.description

/-- The part of a row in front of the name. -/
def start (e : Entry) : Text :=
  "/* ".toList ++ List.leftpad Artifact.indexWidth ' ' e.indexText ++ " */ \x7b ".toList
    ++ e.qcode ++ ", ".toList ++ e.flags ++ ", ".toList

/-- The part of a row in front of the field's opening quote. -/
def before (e : Entry) : QuotedField → Text
  | name => start e
  | signature => start e ++ Literal.quoted e.name ++ ", ".toList ++ e.symbol ++ ", ".toList
  | description =>
    start e ++ Literal.quoted e.name ++ ", ".toList ++ e.symbol ++ ", ".toList
      ++ Literal.quoted e.signature ++ ", ".toList

/-- The part of a row behind the field's closing quote. -/
def after (e : Entry) : QuotedField → Text
  | name =>
    ", ".toList ++ e.symbol ++ ", ".toList ++ Literal.quoted e.signature ++ ", ".toList
      ++ Literal.quoted e.description ++ " \x7d,\n".toList
  | signature => ", ".toList ++ Literal.quoted e.description ++ " \x7d,\n".toList
  | description => " \x7d,\n".toList

theorem row_eq (e : Entry) (field : QuotedField) :
    Artifact.row e = field.before e ++ Literal.quoted (field.ofEntry e) ++ field.after e := by
  unfold Artifact.row before ofEntry after start
  cases field <;> simp only [List.append_assoc]

theorem after_ne_nil (e : Entry) (field : QuotedField) : field.after e ≠ [] := by
  cases field <;> exact List.cons_ne_nil _ _

theorem head?_after (e : Entry) (field : QuotedField) : (field.after e).head? ≠ some '\n' := by
  cases field <;> exact fun h => absurd (Option.some.inj h) (by decide)

theorem ofEntry_of_ofBlock? {block : DocBlock} {e : Entry} (h : Entry.ofBlock? block = some e)
    (field : QuotedField) : field.ofEntry e = Literal.escape (field.ofBlock block) := by
  unfold Entry.ofBlock? at h
  split at h
  · obtain rfl := Option.some.inj h
    cases field <;> rfl
  · simp at h

end QuotedField

theorem Assembly.exists_block_of_mem_entries {set : SourceSet} {e : Entry}
    (he : e ∈ (ofSources set).entries) : ∃ block ∈ set.blocks, Entry.ofBlock? block = some e := by
  have he : e ∈ Entry.ofBlocks set.blocks := List.mem_mergeSort.1 he
  exact List.mem_filterMap.1 he

/-- In the row of every entry, the literal of a field ends at the quote that the row closes it
with if and only if, in the doc block, the backslashes of the field are paired. -/
theorem afterQuote_field_eq_iff {set : SourceSet} {e : Entry}
    (he : e ∈ (Assembly.ofSources set).entries) :
    ∃ block ∈ set.blocks, Entry.ofBlock? block = some e ∧ ∀ field : QuotedField,
      Artifact.row e =
          field.before e ++ '"' :: (field.ofEntry e ++ '"' :: field.after e) ∧
        (Token.afterQuote '"' (field.ofEntry e ++ '"' :: field.after e) = field.after e ↔
          Literal.Paired (field.ofBlock block)) := by
  obtain ⟨block, hblock, hentry⟩ := Assembly.exists_block_of_mem_entries he
  refine ⟨block, hblock, hentry, fun field => ⟨?_, ?_⟩⟩
  · rw [field.row_eq e, Literal.quoted]
    simp
  · rw [field.ofEntry_of_ofBlock? hentry]
    exact Literal.afterQuote_escape_eq_iff (field.after_ne_nil e) (field.head?_after e)

/-- A doc block whose description has backslashes in front of its quotes. -/
def quotingSet : SourceSet where
  root := Path.ofString "/r"
  grouped := [⟨Path.ofString "/r/a.c", "/** Q0 OK 1 a : ->\nPrints \\\"S\\\". */".toList⟩]
  individual := []

/-- Its row. -/
def quotingEntry : Entry where
  index := 1
  indexText := "1".toList
  qcode := "Q0".toList
  flags := "OK".toList
  name := "a".toList
  symbol := "a_".toList
  signature := "->".toList
  description := "Prints \\\\\"S\\\\\".".toList

/-- Its name ends where the row ends it, and its description does not. -/
theorem afterQuote_quotingEntry :
    quotingEntry ∈ (Assembly.ofSources quotingSet).entries ∧
      Token.afterQuote '"' (quotingEntry.name ++ '"' :: QuotedField.name.after quotingEntry) =
        QuotedField.name.after quotingEntry ∧
      Token.afterQuote '"'
          (quotingEntry.description ++ '"' :: QuotedField.description.after quotingEntry) ≠
        QuotedField.description.after quotingEntry := by
  have hentry : quotingEntry ∈ (Assembly.ofSources quotingSet).entries := by decide +kernel
  obtain ⟨block, hblock, -, h⟩ := afterQuote_field_eq_iff hentry
  have hblocks : quotingSet.blocks = [⟨⟨"Q0".toList, "OK".toList, "1".toList, "a".toList,
    "->".toList⟩, "Prints \\\"S\\\".".toList, Path.ofString "/r/a.c"⟩] := by decide +kernel
  obtain rfl := List.mem_singleton.1 (hblocks ▸ hblock)
  refine ⟨hentry, (h .name).2.2 (Literal.paired_singleton (by decide)), fun hend => ?_⟩
  have hpaired : Literal.Paired "Prints \\\"S\\\".".toList := (h .description).2.1 hend
  exact absurd (hpaired "Prints \\".toList "\"S\\\".".toList rfl (.inr rfl)) (by decide)

end Optable
