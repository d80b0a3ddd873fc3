import Optable.Text.Blank
/-!
# Trimming, words and lines

What the cuts of a text leave of it.  Each part is a stretch of the text, a trimmed text neither
starts nor ends blank, and lines that do not end blank are the lines of a text in which nothing
blank stands in front of a line feed.
-/

namespace Optable.Text

/-- The text is empty or starts with a character outside the class. -/
def StopsAt (p : Char → Bool) (t : Text) : Prop := ∀ c ∈ t.head?, p c = false

/-- The text is empty or ends with a character outside the class. -/
def EndsAt (p : Char → Bool) (t : Text) : Prop := ∀ c ∈ t.getLast?, p c = false

/-- Nothing blank stands in front of a line feed, except other line feeds. -/
def Tidy (t : Text) : Prop := ∀ c, isBlank c → c ≠ '\n' → ¬ [c, '\n'] <:+: t

section Ends

variable {p : Char → Bool} {c : Char} {s t : Text}

theorem stopsAt_nil (p : Char → Bool) : StopsAt p [] := by simp [StopsAt]

@[simp] theorem stopsAt_cons : StopsAt p (c :: t) ↔ p c = false := by simp [StopsAt]

theorem stopsAt_reverse : StopsAt p t.reverse ↔ EndsAt p t := by
  simp [StopsAt, EndsAt]

theorem stopsAt_dropWhile (p : Char → Bool) (t : Text) : StopsAt p (t.dropWhile p) := by
  intro c hc
  have h := List.head?_dropWhile_not p t
  rw [Option.mem_def.1 hc] at h
  simpa using h

theorem StopsAt.of_isPrefix (ht : StopsAt p t) (hs : s <+: t) : StopsAt p s := by
  obtain ⟨u, rfl⟩ := hs
  rcases s with _ | ⟨c, s⟩
  · exact stopsAt_nil p
  · exact stopsAt_cons.2 (stopsAt_cons.1 ht)

theorem EndsAt.of_suffix (ht : EndsAt p t) (hs : s <:+ t) : EndsAt p s :=
  stopsAt_reverse.1 ((stopsAt_reverse.2 ht).of_isPrefix (List.reverse_prefix.2 hs))

theorem dropWhile_append (hs : s.all p) (ht : StopsAt p t) : (s ++ t).dropWhile p = t := by
  rw [List.dropWhile_append_of_pos (by simpa using hs)]
  cases t with
  | nil => rfl
  | cons c t => simp [stopsAt_cons.1 ht]

theorem takeWhile_append (hs : s.all p) (ht : StopsAt p t) : (s ++ t).takeWhile p = s := by
  rw [List.takeWhile_append_of_pos (by simpa using hs)]
  cases t with
  | nil => simp
  | cons c t => simp [stopsAt_cons.1 ht]

theorem dropWhile_of_stopsAt (ht : StopsAt p t) : t.dropWhile p = t :=
  dropWhile_append (s := []) rfl ht

theorem dropWhile_append_cons (hc : p c = false) (s t : Text) :
    (s ++ c :: t).dropWhile p = s.dropWhile p ++ c :: t := by
  rw [List.dropWhile_append]
  split
  · next h => rw [List.isEmpty_iff.1 h, List.dropWhile_cons_of_neg (by simp [hc])]; rfl
  · rfl

/-- A text can be cut in one way only where a run of characters of the class ends. -/
theorem append_inj_of_stopsAt {s' t' : Text} (hs : s.all p) (hs' : s'.all p) (ht : StopsAt p t)
    (ht' : StopsAt p t') (h : s ++ t = s' ++ t') : s = s' ∧ t = t' := by
  constructor
  · rw [← takeWhile_append hs ht, h, takeWhile_append hs' ht']
  · rw [← dropWhile_append hs ht, h, dropWhile_append hs' ht']

end Ends

/-! ## Trimming -/

theorem trimStart_of_stopsAt {t : Text} (h : StopsAt isBlank t) : trimStart t = t :=
  dropWhile_of_stopsAt h

theorem trimEnd_of_endsAt {t : Text} (h : EndsAt isBlank t) : trimEnd t = t := by
  rw [trimEnd, dropWhile_of_stopsAt (stopsAt_reverse.2 h), List.reverse_reverse]

theorem endsAt_trimEnd (t : Text) : EndsAt isBlank (trimEnd t) := by
  rw [← stopsAt_reverse, trimEnd, List.reverse_reverse]
  exact stopsAt_dropWhile _ _

theorem trimStart_isSuffix (t : Text) : trimStart t <:+ t := List.dropWhile_suffix isBlank

theorem trimEnd_isPrefix (t : Text) : trimEnd t <+: t := by
  rw [← List.reverse_suffix, trimEnd, List.reverse_reverse]
  exact List.dropWhile_suffix isBlank

theorem trim_isInfix (t : Text) : trim t <:+: t :=
  (trimEnd_isPrefix _).isInfix.trans (trimStart_isSuffix t).isInfix

theorem stopsAt_trim (t : Text) : StopsAt isBlank (trim t) :=
  (stopsAt_dropWhile _ _).of_isPrefix (trimEnd_isPrefix _)

theorem endsAt_trim (t : Text) : EndsAt isBlank (trim t) := endsAt_trimEnd _

theorem trim_of_stopsAt {t : Text} (hstart : StopsAt isBlank t) (hend : EndsAt isBlank t) :
    trim t = t := by
  rw [trim, trimStart_of_stopsAt hstart, trimEnd_of_endsAt hend]

theorem trim_eq_self_iff {t : Text} : trim t = t ↔ StopsAt isBlank t ∧ EndsAt isBlank t := by
  constructor
  · intro h
    rw [← h]
    exact ⟨stopsAt_trim t, endsAt_trim t⟩
  · exact fun h => trim_of_stopsAt h.1 h.2

theorem trim_trim (t : Text) : trim (trim t) = trim t :=
  trim_of_stopsAt (stopsAt_trim t) (endsAt_trim t)

/-- Nothing behind a character that is not blank is lost at the start. -/
theorem trimStart_append_cons {c : Char} (hc : isBlank c = false) (s t : Text) :
    trimStart (s ++ c :: t) = trimStart s ++ c :: t :=
  dropWhile_append_cons hc s t

/-- Nothing in front of a character that is not blank is lost at the end. -/
theorem trimEnd_append_cons {c : Char} (hc : isBlank c = false) (s t : Text) :
    trimEnd (s ++ c :: t) = s ++ c :: trimEnd t := by
  rw [trimEnd, trimEnd, List.reverse_append, List.reverse_cons, List.append_assoc,
    List.singleton_append, dropWhile_append_cons hc]
  simp

theorem trimEnd_append_blank {t : Text} (ht : t.all isBlank) (s : Text) :
    trimEnd (s ++ t) = trimEnd s := by
  rw [trimEnd, trimEnd, List.reverse_append, List.dropWhile_append_of_pos]
  simpa using ht

theorem trimStart_blank_append {s : Text} (hs : s.all isBlank) (t : Text) :
    trimStart (s ++ t) = trimStart t :=
  List.dropWhile_append_of_pos (by simpa using hs)

theorem trim_blank_append {s : Text} (hs : s.all isBlank) (t : Text) : trim (s ++ t) = trim t := by
  rw [trim, trimStart_blank_append hs, trim]

theorem trim_append_blank {t : Text} (ht : t.all isBlank) (s : Text) : trim (s ++ t) = trim s := by
  rw [trim, trim, trimStart, trimStart, List.dropWhile_append]
  split
  · next h =>
    rw [List.isEmpty_iff.1 h, ← List.append_nil t, dropWhile_append ht (stopsAt_nil _)]
  · exact trimEnd_append_blank ht _

theorem exists_eq_blank_append (t : Text) : ∃ blank, blank.all isBlank ∧ t = blank ++ trimStart t :=
  ⟨t.takeWhile isBlank, List.all_takeWhile, List.takeWhile_append_dropWhile.symm⟩

theorem exists_eq_append_blank (t : Text) :
    ∃ blank, blank.all isBlank ∧ t = trimEnd t ++ blank := by
  refine ⟨(t.reverse.takeWhile isBlank).reverse, ?_, ?_⟩
  · rw [List.all_reverse]
    exact List.all_takeWhile
  · rw [trimEnd, ← List.reverse_append, List.takeWhile_append_dropWhile, List.reverse_reverse]

theorem trim_trimEnd (t : Text) : trim (trimEnd t) = trim t := by
  obtain ⟨blank, hblank, ht⟩ := exists_eq_append_blank t
  conv => rhs; rw [ht]
  rw [trim_append_blank hblank]

/-! ## Words -/

/-- A part that a class of characters cuts out of a text has none of them, and one of them stands
behind it unless it is the last part. -/
theorem mem_splitOnP {p : Char → Bool} {t part : Text} (h : part ∈ t.splitOnP p) :
    (∀ c ∈ part, p c = false) ∧ (part <:+ t ∨ ∃ c, p c ∧ part ++ [c] <:+: t) := by
  match hfind : t.find? p with
  | none =>
    have ht : ∀ c ∈ t, p c = false := by simpa using hfind
    rw [List.splitOnP_eq_singleton ht, List.mem_singleton] at h
    subst h
    exact ⟨ht, .inl List.suffix_rfl⟩
  | some c =>
    obtain ⟨hc, a, b, rfl, ha⟩ := List.find?_eq_some_iff_append.1 hfind
    have ha : ∀ d ∈ a, p d = false := by simpa using ha
    rw [List.splitOnP_append_cons_of_forall_mem ha c hc] at h
    rcases List.mem_cons.1 h with rfl | h
    · exact ⟨ha, .inr ⟨c, hc, [], b, by simp⟩⟩
    · obtain ⟨hpart, hb | ⟨d, hd, hb⟩⟩ := mem_splitOnP h
      · exact ⟨hpart, .inl ((hb.trans (List.suffix_cons c b)).trans (List.suffix_append a _))⟩
      · exact ⟨hpart, .inr ⟨d, hd, List.infix_append_of_infix_right (List.infix_cons hb)⟩⟩
termination_by t.length

theorem infix_of_mem_splitOnP {p : Char → Bool} {t part : Text} (h : part ∈ t.splitOnP p) :
    part <:+: t := by
  obtain ⟨-, ht | ⟨c, -, ht⟩⟩ := mem_splitOnP h
  · exact ht.isInfix
  · exact List.infix_append_left.trans ht

theorem mem_words {t w : Text} (h : w ∈ words t) :
    w ≠ [] ∧ w <:+: t ∧ ∀ c ∈ w, isBlank c = false := by
  obtain ⟨hw, hne⟩ := List.mem_filter.1 h
  exact ⟨by simpa using hne, infix_of_mem_splitOnP hw, (mem_splitOnP hw).1⟩

theorem words_nil : words [] = [] := by simp [words]

theorem words_append_cons {c : Char} {w : Text} (hne : w ≠ []) (hw : ∀ d ∈ w, isBlank d = false)
    (hc : isBlank c) (t : Text) : words (w ++ c :: t) = w :: words t := by
  rw [words, List.splitOnP_append_cons_of_forall_mem hw c hc, List.filter_cons_of_pos, words]
  simpa using hne

theorem words_append_blank_cons {c : Char} (hc : isBlank c) (s t : Text) :
    words (s ++ c :: t) = words s ++ words t := by
  rw [words, List.splitOnP_append_cons s t hc, List.filter_append, words, words]

theorem words_blank_append {s : Text} (hs : s.all isBlank) (t : Text) :
    words (s ++ t) = words t := by
  induction s with
  | nil => rfl
  | cons c s ih =>
    obtain ⟨hc, hs⟩ : isBlank c ∧ s.all isBlank := by simpa using hs
    have hcons : words (c :: (s ++ t)) = words [] ++ words (s ++ t) :=
      words_append_blank_cons hc [] (s ++ t)
    rw [List.cons_append, hcons, words_nil, List.nil_append, ih hs]

theorem words_append_blank {t : Text} (ht : t.all isBlank) (s : Text) :
    words (s ++ t) = words s := by
  rcases t with _ | ⟨c, t⟩
  · rw [List.append_nil]
  · obtain ⟨hc, ht⟩ : isBlank c ∧ t.all isBlank := by simpa using ht
    have hnone : words t = [] := by
      rw [← List.append_nil t, words_blank_append ht, words_nil]
    rw [words_append_blank_cons hc, hnone, List.append_nil]

theorem words_trimStart (t : Text) : words (trimStart t) = words t := by
  obtain ⟨blank, hblank, ht⟩ := exists_eq_blank_append t
  conv => rhs; rw [ht]
  rw [words_blank_append hblank]

theorem words_trim (t : Text) : words (trim t) = words t := by
  obtain ⟨blank, hblank, ht⟩ := exists_eq_append_blank (trimStart t)
  rw [← words_trimStart t, ht, words_append_blank hblank, trim]

/-- A word in front of white space, or of nothing, is the first of the words. -/
theorem words_append {w t : Text} (hne : w ≠ []) (hw : ∀ c ∈ w, isBlank c = false)
    (ht : StopsAt (!isBlank ·) t) : words (w ++ t) = w :: words t := by
  rcases t with _ | ⟨c, t⟩
  · rw [List.append_nil, words, List.splitOnP_eq_singleton hw, words_nil]
    exact List.filter_cons_of_pos (by simpa using hne)
  · have hc : isBlank c := by simpa using stopsAt_cons.1 ht
    have hcons : words (c :: t) = words t := words_blank_append (s := [c]) (by simpa using hc) t
    rw [words_append_cons hne hw hc, hcons]

/-- The first word of a text stands behind white space, and white space or nothing behind it. -/
theorem exists_of_words_eq_cons {t w : Text} {ws : List Text} (h : words t = w :: ws) :
    ∃ blank rest, t = blank ++ (w ++ rest) ∧ blank.all isBlank ∧ StopsAt (!isBlank ·) rest ∧
      words rest = ws := by
  obtain ⟨blank, hblank, ht⟩ := exists_eq_blank_append t
  have hstart : StopsAt isBlank (trimStart t) := stopsAt_dropWhile _ _
  rw [← words_trimStart] at h
  generalize trimStart t = start at h ht hstart
  rcases start with _ | ⟨c, u⟩
  · simp [words_nil] at h
  · have hsolid : ∀ d ∈ c :: u.takeWhile (!isBlank ·), isBlank d = false := by
      refine List.forall_mem_cons.2 ⟨stopsAt_cons.1 hstart, fun d hd => ?_⟩
      have hall : (u.takeWhile (!isBlank ·)).all (!isBlank ·) := List.all_takeWhile
      simpa using List.all_eq_true.1 hall d hd
    have hrest : StopsAt (!isBlank ·) (u.dropWhile (!isBlank ·)) := stopsAt_dropWhile _ _
    have hcut : c :: u = (c :: u.takeWhile (!isBlank ·)) ++ u.dropWhile (!isBlank ·) := by
      rw [List.cons_append, List.takeWhile_append_dropWhile]
    rw [hcut, words_append (List.cons_ne_nil _ _) hsolid hrest, List.cons.injEq] at h
    refine ⟨blank, _, ?_, hblank, hrest, h.2⟩
    rw [← h.1, ← hcut]
    exact ht

/-- The first word of a text that does not start blank starts the text. -/
theorem words_cons {c : Char} (hc : isBlank c = false) (t : Text) :
    ∃ w ws, words (c :: t) = (c :: w) :: ws := by
  obtain ⟨w, ws, h⟩ := List.exists_cons_of_ne_nil (List.splitOnP_ne_nil isBlank t)
  rw [words, List.splitOnP_cons_eq_if_modifyHead, if_neg (by simp [hc]), h, List.modifyHead_cons]
  exact ⟨w, _, List.filter_cons_of_pos rfl⟩

/-! ## Lines -/

theorem lines_append_cons (s t : Text) : lines (s ++ '\n' :: t) = lines s ++ lines t :=
  List.splitOn_append_cons_self s t

theorem lines_of_notMem {t : Text} (h : '\n' ∉ t) : lines t = [t] := List.splitOn_eq_singleton h

theorem mem_lines {t line : Text} (h : line ∈ lines t) :
    '\n' ∉ line ∧ (line <:+ t ∨ line ++ ['\n'] <:+: t) := by
  rw [lines, List.splitOn_eq_splitOnP] at h
  obtain ⟨hfeed, ht⟩ := mem_splitOnP h
  refine ⟨fun hmem => absurd (hfeed _ hmem) (by decide), ht.imp_right ?_⟩
  rintro ⟨c, hc, ht⟩
  obtain rfl : c = '\n' := by simpa using hc
  exact ht

theorem infix_of_mem_lines {t line : Text} (h : line ∈ lines t) : line <:+: t := by
  rw [lines, List.splitOn_eq_splitOnP] at h
  exact infix_of_mem_splitOnP h

theorem unlines_concat_nil (t : Text) : unlines (lines t ++ [[]]) = t ++ ['\n'] := by
  have h : lines (t ++ ['\n']) = lines t ++ [[]] := lines_append_cons t []
  rw [← h, unlines_lines]

theorem unlines_cons (line : Text) {ls : List Text} (h : ls ≠ []) :
    unlines (line :: ls) = line ++ '\n' :: unlines ls := by
  obtain ⟨l, ls, rfl⟩ := List.exists_cons_of_ne_nil h
  simp [unlines, List.intercalate_cons_cons]

/-! ## Pairs of neighbours -/

/-- Two neighbours of a joined text are neighbours in one of its parts or meet where they join. -/
theorem pair_infix_append {c d : Char} {s t : Text} :
    [c, d] <:+: s ++ t ↔
      [c, d] <:+: s ∨ [c, d] <:+: t ∨ s.getLast? = some c ∧ t.head? = some d := by
  induction s with
  | nil => simp
  | cons a s ih =>
    rw [List.cons_append, List.infix_cons_iff, List.infix_cons_iff, ih]
    rcases s with _ | ⟨b, s⟩
    · rcases t with _ | ⟨e, t⟩
      · simp [List.cons_prefix_cons]
      · simp only [List.nil_append, List.cons_prefix_cons, List.nil_prefix]
        grind
    · simp only [List.cons_append, List.cons_prefix_cons, List.nil_prefix, List.getLast?_cons_cons]
      grind

theorem Tidy.of_isInfix {s t : Text} (ht : Tidy t) (hs : s <:+: t) : Tidy s :=
  fun c hblank hfeed h => ht c hblank hfeed (h.trans hs)

/-- Lines that do not end blank make a tidy text. -/
theorem tidy_unlines {ls : List Text} (hfeed : ∀ line ∈ ls, '\n' ∉ line)
    (hend : ∀ line ∈ ls, EndsAt isBlank line) : Tidy (unlines ls) := by
  intro c hblank hc
  induction ls with
  | nil => simp [unlines]
  | cons line ls ih =>
    have hline : ¬ [c, '\n'] <:+: line := fun h => hfeed line (by simp) (h.mem (by simp))
    rcases ls with _ | ⟨l, ls⟩
    · simpa [unlines] using hline
    · rw [unlines_cons line (by simp), pair_infix_append, List.infix_cons_iff]
      rintro (h | (h | h) | ⟨h, -⟩)
      · exact hline h
      · exact hc (List.cons_prefix_cons.1 h).1
      · exact ih (fun m hm => hfeed m (by simp [hm])) (fun m hm => hend m (by simp [hm])) h
      · simp [hend line (by simp) c h] at hblank

/-- The lines of a tidy text do not end blank, if the text does not. -/
theorem endsAt_of_mem_lines {t line : Text} (ht : Tidy t) (hend : EndsAt isBlank t)
    (h : line ∈ lines t) : EndsAt isBlank line := by
  obtain ⟨hfeed, hline | hline⟩ := mem_lines h
  · exact hend.of_suffix hline
  · intro c hc
    have hc : line.getLast? = some c := hc
    by_cases hblank : isBlank c
    · have hne : c ≠ '\n' := fun h => hfeed (h ▸ List.mem_of_getLast? hc)
      exact absurd (pair_infix_append.2 (.inr (.inr ⟨hc, rfl⟩))) (ht.of_isInfix hline c hblank hne)
    · simpa using hblank

/-! ## Texts inside texts -/

theorem contains_iff {p t : Text} : contains p t ↔ p <:+: t := by
  induction t with
  | nil => simp [contains]
  | cons c t ih =>
    rw [contains, Bool.or_eq_true, List.isPrefixOf_iff_prefix, ih, List.infix_cons_iff]

end Optable.Text
