import Optable.Proofs.DocBlock
/-!
# Header lines

A header line is four words with white space between them.  White space may stand in front of them,
further words behind them, and a colon with the signature behind these.  A line is read as a header
exactly where it can be cut up like this, and it can be cut up in one way only.
-/

namespace Optable

open Text (isBlank trim trimStart trimEnd StopsAt words)

namespace DocHeader

/-- The part of a line in front of its first colon, or the whole line. -/
def beforeColon (line : Text) : Text := line.takeWhile (· ≠ ':')

/-- A colon and what stands behind it, or nothing. -/
def colonText : Option Text → Text
  | none => []
  | some signature => ':' :: signature

/-- The header that words and a signature make, if there are enough words. -/
def ofWords? (signature : Text) : List Text → Option DocHeader
  | qcode :: flags :: index :: name :: _ => some ⟨qcode, flags, index, name, signature⟩
  | _ => none

/-- White space between two words. -/
structure IsGap (t : Text) : Prop where
  ne_nil : t ≠ []
  blank : t.all isBlank

/-- A character that a word may hold. -/
def isWordChar (c : Char) : Bool := !isBlank c && c ≠ ':'

end DocHeader

open DocHeader (IsWord IsGap isWordChar colonText)

/-- A header line, cut up into its parts. -/
@[ext]
structure HeaderLine where
  indent : Text
  qcode : Text
  qcodeGap : Text
  flags : Text
  flagsGap : Text
  index : Text
  indexGap : Text
  name : Text
  /-- Nothing, or white space with further words. -/
  tail : Text
  /-- What stands behind the colon, if there is a colon. -/
  signature : Option Text
  indent_blank : indent.all isBlank
  qcode_head : qcode.head? = some 'Q'
  qcode_word : IsWord qcode
  qcode_gap : IsGap qcodeGap
  flags_word : IsWord flags
  flags_gap : IsGap flagsGap
  index_word : IsWord index
  index_gap : IsGap indexGap
  name_word : IsWord name
  tail_open : StopsAt (!isBlank ·) tail
  tail_no_colon : ':' ∉ tail

namespace HeaderLine

/-- The parts in front of the colon, one after the other. -/
def fields (l : HeaderLine) : Text :=
  l.indent ++ (l.qcode ++ (l.qcodeGap ++ (l.flags ++ (l.flagsGap ++ (l.index ++ (l.indexGap ++
    (l.name ++ l.tail)))))))

def text (l : HeaderLine) : Text := l.fields ++ colonText l.signature

/-- The header that the parts make. -/
def header (l : HeaderLine) : DocHeader :=
  ⟨l.qcode, l.flags, l.index, l.name, trim (l.signature.getD [])⟩

end HeaderLine

/-! ## The first colon -/

namespace DocHeader

theorem cut?_eq_none {c : Char} {t : Text} (h : c ∉ t) : Text.cut? c t = none := by
  rcases hcut : Text.cut? c t with _ | ⟨a, b⟩
  · rfl
  · rw [(Text.eq_append_of_cut? hcut).1] at h
    simp at h

theorem stopsAt_colonText (signature : Option Text) :
    StopsAt (· ≠ ':') (colonText signature) := by
  cases signature with
  | none => exact Text.stopsAt_nil _
  | some signature => exact Text.stopsAt_cons.2 (by decide)

theorem all_ne_colon {t : Text} (h : ':' ∉ t) : t.all (· ≠ ':') := by
  rw [List.all_eq_true]
  intro c hc
  have hne : c ≠ ':' := fun heq => h (heq ▸ hc)
  simpa using hne

theorem beforeColon_append {before : Text} (h : ':' ∉ before) (signature : Option Text) :
    beforeColon (before ++ colonText signature) = before :=
  Text.takeWhile_append (all_ne_colon h) (stopsAt_colonText signature)

theorem exists_eq_append_colonText (line : Text) :
    ∃ before signature, ':' ∉ before ∧ line = before ++ colonText signature := by
  by_cases h : ':' ∈ line
  · obtain ⟨before, signature, rfl, hbefore⟩ := List.eq_append_cons_of_mem h
    exact ⟨before, some signature, hbefore, rfl⟩
  · exact ⟨line, none, h, (List.append_nil line).symm⟩

/-! ## Reading a line without trimming it -/

/-- Trimming a line takes no word away, and of the signature only what is trimmed again. -/
theorem parts_trim {before : Text} (h : ':' ∉ before) (signature : Option Text) :
    ∃ fields, parts (trim (before ++ colonText signature)) =
      (fields, trim (signature.getD [])) ∧ words fields = words before := by
  cases signature with
  | none =>
    -- Nothing stands behind the fields, so that they are trimmed at their end too.
    have hcolon : ':' ∉ trim before := fun hmem => h ((Text.trim_isInfix before).subset hmem)
    refine ⟨trim before, ?_, Text.words_trim before⟩
    rw [colonText, List.append_nil, parts, cut?_eq_none hcolon]
    rfl
  | some signature =>
    have hcolon : ':' ∉ trimStart before :=
      fun hmem => h ((Text.trimStart_isSuffix before).subset hmem)
    refine ⟨trimStart before, ?_, Text.words_trimStart before⟩
    rw [colonText, trim, Text.trimStart_append_cons (by decide),
      Text.trimEnd_append_cons (by decide), parts, cut?_append hcolon]
    simp only [Text.trim_trimEnd, Option.getD_some]

theorem head?_trim (t : Text) : (trim t).head? = (trimStart t).head? := by
  have hstart : StopsAt isBlank (trimStart t) := Text.stopsAt_dropWhile _ _
  rw [trim]
  generalize trimStart t = s at hstart
  rcases s with _ | ⟨c, s⟩
  · rfl
  · have hend : trimEnd ([] ++ c :: s) = [] ++ c :: trimEnd s :=
      Text.trimEnd_append_cons (Text.stopsAt_cons.1 hstart) [] s
    rw [List.nil_append, List.nil_append] at hend
    rw [hend]
    rfl

theorem ofLine?_append {before : Text} (h : ':' ∉ before) (signature : Option Text) :
    ofLine? (before ++ colonText signature) =
      if (trimStart (before ++ colonText signature)).head? = some 'Q' then
        ofWords? (trim (signature.getD [])) (words before)
      else none := by
  obtain ⟨fields, hparts, hwords⟩ := parts_trim h signature
  rw [ofLine?]
  simp only [head?_trim, hparts, hwords]
  rfl

theorem ofWords?_eq_some {signature : Text} {ws : List Text} {header : DocHeader}
    (h : ofWords? signature ws = some header) :
    ∃ more, ws = header.qcode :: header.flags :: header.index :: header.name :: more ∧
      header.signature = signature := by
  unfold ofWords? at h
  split at h
  · next qcode flags index name more =>
    obtain rfl := Option.some.inj h
    exact ⟨more, rfl, rfl⟩
  · simp at h

theorem ofWords?_eq_none_iff {signature : Text} {ws : List Text} :
    ofWords? signature ws = none ↔ ws.length < 4 := by
  rcases ws with _ | ⟨qcode, _ | ⟨flags, _ | ⟨index, _ | ⟨name, ws⟩⟩⟩⟩ <;> simp [ofWords?]

/-- A line is rejected exactly where it starts with another letter or has too few words. -/
theorem ofLine?_eq_none_iff (line : Text) :
    ofLine? line = none ↔
      (trimStart line).head? ≠ some 'Q' ∨ (words (beforeColon line)).length < 4 := by
  obtain ⟨before, signature, hbefore, rfl⟩ := exists_eq_append_colonText line
  rw [ofLine?_append hbefore, beforeColon_append hbefore]
  split
  · next hhead => simp [hhead, ofWords?_eq_none_iff]
  · next hhead => simp [hhead]

end DocHeader

/-! ## Words and gaps -/

namespace DocHeader

variable {w w' g g' s s' t t' : Text}

theorem IsWord.all (hw : IsWord w) : w.all isWordChar := by
  rw [List.all_eq_true]
  intro c hc
  have hne : c ≠ ':' := fun heq => hw.no_colon (heq ▸ hc)
  simp [isWordChar, hw.solid c hc, hne]

theorem colonText_injective : Function.Injective colonText := by
  intro signature signature' h
  cases signature <;> cases signature' <;> simp_all [colonText]

theorem IsWord.stopsAt (hw : IsWord w) (t : Text) : StopsAt isBlank (w ++ t) := by
  obtain ⟨c, w, rfl⟩ := List.exists_cons_of_ne_nil hw.ne_nil
  exact Text.stopsAt_cons.2 (hw.solid c List.mem_cons_self)

theorem stopsAt_isWordChar (ht : StopsAt (!isBlank ·) t) : StopsAt isWordChar t := by
  intro c hc
  have hblank : isBlank c := by simpa using ht c hc
  simp [isWordChar, hblank]

theorem IsGap.stopsAt (hg : IsGap g) (t : Text) : StopsAt (!isBlank ·) (g ++ t) := by
  obtain ⟨c, g, rfl⟩ := List.exists_cons_of_ne_nil hg.ne_nil
  have hc : isBlank c := List.all_eq_true.1 hg.blank c List.mem_cons_self
  exact Text.stopsAt_cons.2 (by simp [hc])

theorem IsGap.colon_notMem (hg : IsGap g) : ':' ∉ g :=
  fun h => absurd (List.all_eq_true.1 hg.blank ':' h) (by decide)

/-- A word and the white space behind it can be cut off in one way only. -/
theorem word_gap_inj (hw : IsWord w) (hw' : IsWord w') (hg : IsGap g) (hg' : IsGap g')
    (ht : StopsAt isBlank t) (ht' : StopsAt isBlank t')
    (h : w ++ (g ++ t) = w' ++ (g' ++ t')) : w = w' ∧ g = g' ∧ t = t' := by
  obtain ⟨hword, hrest⟩ := Text.append_inj_of_stopsAt hw.all hw'.all
    (stopsAt_isWordChar (hg.stopsAt t)) (stopsAt_isWordChar (hg'.stopsAt t')) h
  exact ⟨hword, Text.append_inj_of_stopsAt hg.blank hg'.blank ht ht' hrest⟩

theorem exists_gap_of_words_eq_cons {ws : List Text} (ht : StopsAt (!isBlank ·) t)
    (h : words t = w :: ws) :
    ∃ gap rest, t = gap ++ (w ++ rest) ∧ IsGap gap ∧ StopsAt (!isBlank ·) rest ∧
      words rest = ws := by
  obtain ⟨gap, rest, rfl, hgap, hrest, hwords⟩ := Text.exists_of_words_eq_cons h
  refine ⟨gap, rest, rfl, ⟨?_, hgap⟩, hrest, hwords⟩
  rintro rfl
  -- Without white space the word itself would start blank.
  obtain ⟨hne, -, hsolid⟩ := Text.mem_words (h ▸ List.mem_cons_self : w ∈ words _)
  obtain ⟨c, w, rfl⟩ := List.exists_cons_of_ne_nil hne
  have hblank : isBlank c := by simpa using Text.stopsAt_cons.1 ht
  rw [hsolid c List.mem_cons_self] at hblank
  exact absurd hblank (by decide)

end DocHeader

/-! ## Lines and their parts -/

namespace HeaderLine

variable (l : HeaderLine)

theorem text_eq :
    l.text = l.indent ++ (l.qcode ++ (l.qcodeGap ++ (l.flags ++ (l.flagsGap ++ (l.index ++
      (l.indexGap ++ (l.name ++ (l.tail ++ colonText l.signature)))))))) := by
  simp only [text, fields, List.append_assoc]

theorem colon_notMem_fields : ':' ∉ l.fields := by
  have hindent : ':' ∉ l.indent :=
    fun h => absurd (List.all_eq_true.1 l.indent_blank ':' h) (by decide)
  simp only [fields, List.mem_append, not_or]
  exact ⟨hindent, l.qcode_word.no_colon, l.qcode_gap.colon_notMem, l.flags_word.no_colon,
    l.flags_gap.colon_notMem, l.index_word.no_colon, l.index_gap.colon_notMem,
    l.name_word.no_colon, l.tail_no_colon⟩

theorem words_fields :
    words l.fields = l.qcode :: l.flags :: l.index :: l.name :: words l.tail := by
  rw [fields, Text.words_blank_append l.indent_blank,
    Text.words_append l.qcode_word.ne_nil l.qcode_word.solid (l.qcode_gap.stopsAt _),
    Text.words_blank_append l.qcode_gap.blank,
    Text.words_append l.flags_word.ne_nil l.flags_word.solid (l.flags_gap.stopsAt _),
    Text.words_blank_append l.flags_gap.blank,
    Text.words_append l.index_word.ne_nil l.index_word.solid (l.index_gap.stopsAt _),
    Text.words_blank_append l.index_gap.blank,
    Text.words_append l.name_word.ne_nil l.name_word.solid l.tail_open]

theorem head?_trimStart_text : (trimStart l.text).head? = some 'Q' := by
  obtain ⟨q, hq⟩ := List.head?_eq_some_iff.1 l.qcode_head
  rw [text_eq, Text.trimStart_blank_append l.indent_blank,
    Text.trimStart_of_stopsAt (l.qcode_word.stopsAt _), hq]
  rfl

theorem stopsAt_tail : StopsAt isWordChar (l.tail ++ colonText l.signature) := by
  rcases htail : l.tail with _ | ⟨c, tail⟩
  · cases l.signature with
    | none => exact Text.stopsAt_nil _
    | some signature => exact Text.stopsAt_cons.2 (by decide)
  · have hopen := DocHeader.stopsAt_isWordChar l.tail_open
    rw [htail] at hopen
    exact Text.stopsAt_cons.2 (Text.stopsAt_cons.1 hopen)

theorem ofLine?_text : DocHeader.ofLine? l.text = some l.header := by
  have hhead := l.head?_trimStart_text
  rw [text] at hhead ⊢
  rw [DocHeader.ofLine?_append l.colon_notMem_fields, if_pos hhead, l.words_fields]
  rfl

theorem exists_of_ofLine?_eq_some {line : Text} {header : DocHeader}
    (h : DocHeader.ofLine? line = some header) :
    ∃ l : HeaderLine, l.text = line ∧ l.header = header := by
  obtain ⟨before, signature, hbefore, rfl⟩ := DocHeader.exists_eq_append_colonText line
  rw [DocHeader.ofLine?_append hbefore] at h
  split at h
  · next hhead =>
    obtain ⟨more, hwords, hsignature⟩ := DocHeader.ofWords?_eq_some h
    have hword {w : Text} (hw : w ∈ [header.qcode, header.flags, header.index, header.name]) :
        IsWord w := by
      refine DocHeader.isWord_of_mem_words hbefore ?_
      rw [hwords]
      exact List.mem_append_left more hw
    -- The words are cut off one by one, each with the white space in front of it.
    obtain ⟨indent, afterQcode, rfl, hindent, hopen, hwords⟩ :=
      Text.exists_of_words_eq_cons hwords
    obtain ⟨qcodeGap, afterFlags, rfl, hqcodeGap, hopen, hwords⟩ :=
      DocHeader.exists_gap_of_words_eq_cons hopen hwords
    obtain ⟨flagsGap, afterIndex, rfl, hflagsGap, hopen, hwords⟩ :=
      DocHeader.exists_gap_of_words_eq_cons hopen hwords
    obtain ⟨indexGap, tail, rfl, hindexGap, hopen, -⟩ :=
      DocHeader.exists_gap_of_words_eq_cons hopen hwords
    have hqcode : IsWord header.qcode := hword (by simp)
    have hqcodeHead : header.qcode.head? = some 'Q' := by
      rw [List.append_assoc, Text.trimStart_blank_append hindent, List.append_assoc,
        Text.trimStart_of_stopsAt (hqcode.stopsAt _), List.head?_append] at hhead
      obtain ⟨c, w, hw⟩ := List.exists_cons_of_ne_nil hqcode.ne_nil
      rw [hw] at hhead ⊢
      exact hhead
    have htail : ':' ∉ tail := by
      simp only [List.mem_append, not_or] at hbefore
      exact hbefore.2.2.2.2.2.2.2.2
    refine ⟨{
      indent, qcode := header.qcode, qcodeGap, flags := header.flags, flagsGap
      index := header.index, indexGap, name := header.name, tail, signature
      indent_blank := hindent
      qcode_head := hqcodeHead
      qcode_word := hqcode
      qcode_gap := hqcodeGap
      flags_word := hword (by simp)
      flags_gap := hflagsGap
      index_word := hword (by simp)
      index_gap := hindexGap
      name_word := hword (by simp)
      tail_open := hopen
      tail_no_colon := htail }, ?_, ?_⟩
    · rw [text, fields]
    · rw [HeaderLine.header, ← hsignature]
  · simp at h

/-- A line can be cut up in one way only. -/
theorem text_injective : Function.Injective text := by
  intro l l' h
  -- The parts are cut off from the left, each where the next one starts with a character of
  -- another kind.
  rw [l.text_eq, l'.text_eq] at h
  obtain ⟨hindent, h⟩ := Text.append_inj_of_stopsAt l.indent_blank l'.indent_blank
    (l.qcode_word.stopsAt _) (l'.qcode_word.stopsAt _) h
  obtain ⟨hqcode, hqcodeGap, h⟩ := DocHeader.word_gap_inj l.qcode_word l'.qcode_word
    l.qcode_gap l'.qcode_gap (l.flags_word.stopsAt _) (l'.flags_word.stopsAt _) h
  obtain ⟨hflags, hflagsGap, h⟩ := DocHeader.word_gap_inj l.flags_word l'.flags_word
    l.flags_gap l'.flags_gap (l.index_word.stopsAt _) (l'.index_word.stopsAt _) h
  obtain ⟨hindex, hindexGap, h⟩ := DocHeader.word_gap_inj l.index_word l'.index_word
    l.index_gap l'.index_gap (l.name_word.stopsAt _) (l'.name_word.stopsAt _) h
  obtain ⟨hname, h⟩ := Text.append_inj_of_stopsAt l.name_word.all l'.name_word.all
    l.stopsAt_tail l'.stopsAt_tail h
  obtain ⟨htail, h⟩ := Text.append_inj_of_stopsAt (DocHeader.all_ne_colon l.tail_no_colon)
    (DocHeader.all_ne_colon l'.tail_no_colon) (DocHeader.stopsAt_colonText _)
    (DocHeader.stopsAt_colonText _) h
  exact HeaderLine.ext hindent hqcode hqcodeGap hflags hflagsGap hindex hindexGap hname htail
    (DocHeader.colonText_injective h)

end HeaderLine

/-- A line is read as a header exactly where it has parts that make the header.  It has these parts
in one way only, and it is rejected exactly where it starts with another letter or has less than
four words in front of its first colon. -/
theorem DocHeader.ofLine?_grammar (line : Text) :
    (∀ header, ofLine? line = some header ↔
      ∃ l : HeaderLine, l.text = line ∧ l.header = header) ∧
    Function.Injective HeaderLine.text ∧
    (ofLine? line = none ↔
      (trimStart line).head? ≠ some 'Q' ∨ (words (beforeColon line)).length < 4) := by
  refine ⟨fun header => ⟨HeaderLine.exists_of_ofLine?_eq_some, ?_⟩, HeaderLine.text_injective,
    ofLine?_eq_none_iff line⟩
  rintro ⟨l, rfl, rfl⟩
  exact l.ofLine?_text

example : DocHeader.ofLine? " Q0 OK 5 get it: -> F : G ".toList =
    some ⟨"Q0".toList, "OK".toList, "5".toList, "get".toList, "-> F : G".toList⟩ := by decide

end Optable
