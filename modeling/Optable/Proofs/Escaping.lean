import Optable.Proofs.Quoting
/-!
# Escaped text, read back

Escaping leaves backslashes as they are, so an escaped text can be read back only where no backslash
of the text makes an escape of what follows it.  Such are the texts without backslashes, and the
display names with a marker behind their glyph.
-/

namespace Optable.Literal

open Token (Quotable)

/-- A character that is the same behind a backslash, when an escaped text is read back. -/
def IsInert (c : Char) : Prop := c ≠ '"' ∧ c ≠ '\n' ∧ c ≠ '\\' ∧ c ≠ 'n'

/-- Each backslash stands in front of an inert character. -/
def IsOrdinary (t : Text) : Prop :=
  ∀ before after : Text, t = before ++ '\\' :: after → ∃ c ∈ after.head?, IsInert c

/-- A text ends with a backslash that is not itself escaped: the backslashes in front of it are even
in number. -/
def EndsEscaping (t : Text) : Prop :=
  ∃ front, t = front ++ ['\\'] ∧ backslashesAtEnd front % 2 = 0

/-- Each quote stands behind a backslash that is not itself escaped. -/
def QuotesEscaped (t : Text) : Prop :=
  ∀ before after : Text, t = before ++ '"' :: after → EndsEscaping before

/-! ## Ordinary texts -/

variable {c : Char} {t : Text}

theorem isOrdinary_of_notMem (h : '\\' ∉ t) : IsOrdinary t := by
  rintro before after rfl
  simp at h

theorem isOrdinary_of_append {s : Text} (h : IsOrdinary (s ++ t)) : IsOrdinary t := by
  rintro before after rfl
  exact h (s ++ before) after (List.append_assoc s before _).symm

theorem IsOrdinary.cons (hc : c ≠ '\\') (h : IsOrdinary t) : IsOrdinary (c :: t) := by
  intro before after ht
  rcases before with _ | ⟨d, before⟩
  · exact absurd (List.cons.inj ht).1 hc
  · exact h before after (List.cons.inj ht).2

theorem IsOrdinary.backslash (hc : IsInert c) (h : IsOrdinary (c :: t)) :
    IsOrdinary ('\\' :: c :: t) := by
  intro before after ht
  rcases before with _ | ⟨d, before⟩
  · obtain rfl : c :: t = after := (List.cons.inj ht).2
    exact ⟨c, rfl, hc⟩
  · exact h before after (List.cons.inj ht).2

theorem IsOrdinary.append {s : Text} (hs : '\\' ∉ s) (h : IsOrdinary t) : IsOrdinary (s ++ t) := by
  induction s with
  | nil => exact h
  | cons c s ih =>
    obtain ⟨hc, hs⟩ := not_or.1 (mt List.mem_cons.2 hs)
    exact (ih hs).cons (Ne.symm hc)

theorem isInert_of_isOrdinary (h : IsOrdinary ('\\' :: c :: t)) : IsInert c := by
  obtain ⟨d, hd, hinert⟩ := h [] (c :: t) rfl
  obtain rfl : c = d := Option.some.inj hd
  exact hinert

theorem not_isOrdinary_backslash : ¬ IsOrdinary ['\\'] := by
  intro h
  obtain ⟨c, hc, -⟩ := h [] [] rfl
  simp at hc

/-- A display name with one marker, behind its glyph. -/
theorem isOrdinary_marker {glyph name : Text} (hglyph : '\\' ∉ glyph) (hname : '\\' ∉ name) :
    IsOrdinary (glyph ++ '\\' :: '0' :: name) := by
  have hzero : IsInert '0' := ⟨by decide, by decide, by decide, by decide⟩
  exact .append hglyph (.backslash hzero (.cons (by decide) (isOrdinary_of_notMem hname)))

/-! ## Reading back -/

theorem unescape_cons (hc : c ≠ '\\') (t : Text) : unescape (c :: t) = c :: unescape t := by
  rw [unescape] <;> simp_all

theorem unescape_backslash (hc : IsInert c) (t : Text) :
    unescape ('\\' :: c :: t) = '\\' :: c :: unescape t := by
  obtain ⟨hquote, -, -, hn⟩ := hc
  rw [unescape] <;> simp_all

theorem unescape_escapeChar_append (hc : c ≠ '\\') (t : Text) :
    unescape (escapeChar c ++ t) = c :: unescape t := by
  by_cases hquote : c = '"'
  · subst hquote
    rfl
  · by_cases hfeed : c = '\n'
    · subst hfeed
      rfl
    · rw [escapeChar_of_ne hquote hfeed, List.singleton_append, unescape_cons hc]

theorem escape_backslash (hc : IsInert c) (t : Text) :
    escape ('\\' :: c :: t) = '\\' :: c :: escape t := by
  rw [escape_cons, escape_cons, escapeChar_of_ne (by decide) (by decide),
    escapeChar_of_ne hc.1 hc.2.1]
  rfl

theorem unescape_escape (h : IsOrdinary t) : unescape (escape t) = t := by
  fun_induction unescape t with
  | case1 => rfl
  | case2 t => exact absurd rfl (isInert_of_isOrdinary h).1
  | case3 t => exact absurd rfl (isInert_of_isOrdinary h).2.2.2
  | case4 c t _ _ ih =>
    have hc : IsInert c := isInert_of_isOrdinary h
    have ht : IsOrdinary t := isOrdinary_of_append (s := ['\\', c]) h
    rw [escape_backslash hc, unescape_backslash hc, ih ht]
  | case5 c t _ _ hbackslash ih =>
    by_cases hc : c = '\\'
    · -- A backslash with nothing behind it is not ordinary.
      subst hc
      rcases t with _ | ⟨d, t⟩
      · exact absurd h not_isOrdinary_backslash
      · exact absurd rfl (hbackslash d t rfl)
    · have ht : IsOrdinary t := isOrdinary_of_append (s := [c]) h
      rw [escape_cons, unescape_escapeChar_append hc, ih ht]

/-! ## Quotes in an escaped text -/

theorem IsOrdinary.paired (h : IsOrdinary t) : Paired t := by
  rintro before after rfl hafter
  rcases List.eq_nil_or_concat before with rfl | ⟨before, d, rfl⟩
  · rfl
  · rw [List.concat_eq_append, backslashesAtEnd_concat]
    split
    · next hd =>
      -- A backslash here would stand in front of a quote or of nothing.
      subst hd
      rw [List.concat_eq_append, List.append_assoc] at h
      obtain ⟨c, hc, hinert⟩ := h before after rfl
      rcases hafter with rfl | hquote
      · simp at hc
      · obtain rfl : c = '"' := Option.some.inj (hc.symm.trans hquote)
        exact absurd rfl hinert.1
    · rfl

theorem EndsEscaping.append {s : Text} (hs : backslashesAtEnd s % 2 = 0) (h : EndsEscaping t) :
    EndsEscaping (s ++ t) := by
  obtain ⟨front, rfl, hfront⟩ := h
  exact ⟨s ++ front, by simp, by rw [backslashesAtEnd_append_mod hs, hfront]⟩

theorem quotesEscaped_of_quotable (h : Quotable '"' t) : QuotesEscaped t := by
  induction h with
  | nil =>
    intro before after h
    simp at h
  | @plain c t hc hfeed hquote _ ih =>
    rintro (_ | ⟨d, before⟩) after h
    · exact absurd (List.cons.inj h).1 hquote
    · simp only [List.cons_append, List.cons.injEq] at h
      obtain ⟨rfl, ht⟩ := h
      have heven : backslashesAtEnd [c] % 2 = 0 := by simp [backslashesAtEnd, hc]
      exact (ih before after ht).append heven
  | @escaped c t _ ih =>
    -- The quote is not the backslash, so that it is the escaped character or stands behind it.
    rintro (_ | ⟨d, _ | ⟨e, before⟩⟩) after h
    · exact absurd (List.cons.inj h).1 (by decide)
    · simp only [List.cons_append, List.cons.injEq] at h
      obtain ⟨rfl, -⟩ := h
      exact ⟨[], rfl, rfl⟩
    · simp only [List.cons_append, List.cons.injEq] at h
      obtain ⟨rfl, rfl, ht⟩ := h
      have heven : backslashesAtEnd ['\\', c] % 2 = 0 := by
        by_cases hc : c = '\\' <;> simp [backslashesAtEnd, hc]
      exact (ih before after ht).append heven

theorem IsOrdinary.quotesEscaped_escape (h : IsOrdinary t) : QuotesEscaped (escape t) :=
  quotesEscaped_of_quotable ((quotable_escape_iff t).2 h.paired)

/-- An ordinary text is read back from what it is escaped as, so that no two of them are escaped
alike.  Escaped it has no line feed, and each quote in it is escaped.  Ordinary are the texts
without backslashes, and the display names with one marker. -/
theorem escape_faithful :
    (∀ t, IsOrdinary t → unescape (escape t) = t ∧ '\n' ∉ escape t ∧ QuotesEscaped (escape t)) ∧
    (∀ s t, IsOrdinary s → IsOrdinary t → escape s = escape t → s = t) ∧
    (∀ t, '\\' ∉ t → IsOrdinary t) ∧
    ∀ glyph name, '\\' ∉ glyph → '\\' ∉ name → IsOrdinary (glyph ++ '\\' :: '0' :: name) := by
  refine ⟨fun t h => ⟨unescape_escape h, newline_notMem_escape t, h.quotesEscaped_escape⟩, ?_,
    fun t => isOrdinary_of_notMem, fun glyph name => isOrdinary_marker⟩
  intro s t hs ht h
  rw [← unescape_escape hs, h, unescape_escape ht]

/-- The display name of an operator, with quotes for its glyph. -/
theorem escape_faithful_quotes :
    IsOrdinary "\"\"\\0quotes".toList ∧
      escape "\"\"\\0quotes".toList = "\\\"\\\"\\0quotes".toList ∧
      unescape (escape "\"\"\\0quotes".toList) = "\"\"\\0quotes".toList ∧
      QuotesEscaped (escape "\"\"\\0quotes".toList) := by
  obtain ⟨hfaithful, -, -, hmarker⟩ := escape_faithful
  have h : IsOrdinary "\"\"\\0quotes".toList :=
    hmarker "\"\"".toList "quotes".toList (by decide) (by decide)
  obtain ⟨hread, -, hquotes⟩ := hfaithful _ h
  exact ⟨h, by decide, hread, hquotes⟩

end Optable.Literal
