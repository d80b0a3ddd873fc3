import Optable.DocBlock
import Optable.Proofs.Partition
/-!
# Doc blocks, printed and read again

A doc block that has been read is canonical: its words are words, its signature is trimmed and on
one line, and no line of its description ends blank.  A canonical block is read back from the
comment that prints it, and printing joins parts of a comment only by characters that cannot end
one.  So reading, printing and reading again gives the same blocks.
-/

namespace Optable

open Text (isBlank trim trimEnd StopsAt EndsAt)
open Token (NoClose noClose_nil noClose_append_cons)

/-! ## Header lines -/

namespace DocHeader

/-- A word of a header, as it stands in front of the colon. -/
structure IsWord (w : Text) : Prop where
  ne_nil : w ≠ []
  solid : ∀ c ∈ w, isBlank c = false
  no_colon : ':' ∉ w

theorem isWord_iff {w : Text} :
    IsWord w ↔ w ≠ [] ∧ (w.all fun c => !isBlank c) ∧ ':' ∉ w := by
  constructor
  · intro h
    exact ⟨h.ne_nil, by simpa using h.solid, h.no_colon⟩
  · rintro ⟨hne, hsolid, hcolon⟩
    exact ⟨hne, by simpa using hsolid, hcolon⟩

instance (w : Text) : Decidable (IsWord w) := decidable_of_iff _ isWord_iff.symm

/-- What every header is that a line is read as. -/
structure Canonical (header : DocHeader) : Prop where
  qcode_head : header.qcode.head? = some 'Q'
  qcode : IsWord header.qcode
  flags : IsWord header.flags
  index : IsWord header.index
  name : IsWord header.name
  signature_trimmed : trim header.signature = header.signature
  signature_line : '\n' ∉ header.signature

/-- The words of a header, each with a space behind it. -/
def fields (header : DocHeader) : Text :=
  header.qcode ++ ' ' :: header.flags ++ ' ' :: header.index ++ ' ' :: header.name ++ [' ']

/-- The line that the header is printed as. -/
def line (header : DocHeader) : Text := header.fields ++ ':' :: ' ' :: header.signature

theorem cut?_append {c : Char} {s : Text} (hs : c ∉ s) (t : Text) :
    Text.cut? c (s ++ c :: t) = some (s, t) := by
  induction s with
  | nil => simp [Text.cut?]
  | cons d s ih =>
    obtain ⟨hd, hs⟩ := not_or.1 (mt List.mem_cons.2 hs)
    rw [List.cons_append, Text.cut?, if_neg (Ne.symm hd), ih hs]
    rfl

theorem notMem_of_cut?_eq_none {c : Char} {t : Text} (h : Text.cut? c t = none) : c ∉ t := by
  induction t with
  | nil => simp
  | cons d t ih =>
    by_cases hd : d = c
    · simp [Text.cut?, hd] at h
    · rw [Text.cut?, if_neg hd, Option.map_eq_none_iff] at h
      simp [Ne.symm hd, ih h]

theorem ofLine?_trimEnd (line : Text) : ofLine? (trimEnd line) = ofLine? line := by
  rw [ofLine?, ofLine?, Text.trim_trimEnd]

theorem Canonical.words_fields {header : DocHeader} (h : header.Canonical) :
    Text.words header.fields = [header.qcode, header.flags, header.index, header.name] := by
  have hspace : isBlank ' ' := by decide
  simp only [fields, List.append_assoc, List.cons_append]
  rw [Text.words_append_cons h.qcode.ne_nil h.qcode.solid hspace,
    Text.words_append_cons h.flags.ne_nil h.flags.solid hspace,
    Text.words_append_cons h.index.ne_nil h.index.solid hspace,
    Text.words_append_cons h.name.ne_nil h.name.solid hspace, Text.words_nil]

theorem Canonical.colon_notMem_fields {header : DocHeader} (h : header.Canonical) :
    ':' ∉ header.fields := by
  simp [fields, h.qcode.no_colon, h.flags.no_colon, h.index.no_colon, h.name.no_colon]

theorem Canonical.exists_fields_eq {header : DocHeader} (h : header.Canonical) :
    ∃ t, header.fields = 'Q' :: t := by
  obtain ⟨q, hq⟩ := List.head?_eq_some_iff.1 h.qcode_head
  exact ⟨_, by rw [fields, hq]; rfl⟩

theorem Canonical.trim_line {header : DocHeader} (h : header.Canonical) :
    trim header.line = header.fields ++ ':' :: trimEnd (' ' :: header.signature) := by
  obtain ⟨t, ht⟩ := h.exists_fields_eq
  have hstart : StopsAt isBlank header.line := by
    rw [line, ht]
    exact Text.stopsAt_cons.2 (by decide)
  rw [trim, Text.trimStart_of_stopsAt hstart, line, Text.trimEnd_append_cons (by decide)]

/-- A canonical header is read back from its line. -/
theorem Canonical.ofLine?_line {header : DocHeader} (h : header.Canonical) :
    ofLine? header.line = some header := by
  have hhead : (trim header.line).head? = some 'Q' := by
    obtain ⟨t, ht⟩ := h.exists_fields_eq
    rw [h.trim_line, ht]
    rfl
  have hparts : parts (trim header.line) = (header.fields, header.signature) := by
    rw [h.trim_line, parts, cut?_append h.colon_notMem_fields]
    simp only [Text.trim_trimEnd]
    rw [← List.singleton_append, Text.trim_blank_append (by decide), h.signature_trimmed]
  simp only [ofLine?, hhead, hparts, h.words_fields, if_true]

/-- The part of a line in front of the first colon, and the signature behind it. -/
theorem parts_spec {line before signature : Text} (h : parts line = (before, signature)) :
    before <+: line ∧ ':' ∉ before ∧ signature <:+: line ∧ trim signature = signature := by
  unfold parts at h
  split at h
  · next a b hcut =>
    obtain ⟨rfl, rfl⟩ := by simpa using h
    obtain ⟨rfl, hcolon⟩ := Text.eq_append_of_cut? hcut
    refine ⟨List.prefix_append _ _, hcolon, (Text.trim_isInfix b).trans ?_, Text.trim_trim b⟩
    exact List.infix_append_of_infix_right (List.infix_cons List.infix_rfl)
  · next hcut =>
    obtain ⟨rfl, rfl⟩ := by simpa using h
    exact ⟨List.prefix_rfl, notMem_of_cut?_eq_none hcut, List.nil_infix, rfl⟩

theorem isWord_of_mem_words {t w : Text} (ht : ':' ∉ t) (hw : w ∈ Text.words t) : IsWord w := by
  obtain ⟨hne, ht', hsolid⟩ := Text.mem_words hw
  exact ⟨hne, hsolid, fun h => ht (ht'.subset h)⟩

theorem head?_of_words {line before w : Text} {ws : List Text}
    (hline : line.head? = some 'Q') (hbefore : before <+: line)
    (hwords : Text.words before = w :: ws) : w.head? = some 'Q' := by
  obtain ⟨rest, rfl⟩ := hbefore
  rcases before with _ | ⟨c, before⟩
  · simp [Text.words_nil] at hwords
  · obtain rfl : c = 'Q' := by simpa using hline
    obtain ⟨v, vs, hv⟩ := Text.words_cons (c := 'Q') (by decide) before
    rw [hv] at hwords
    rw [← (List.cons.inj hwords).1]
    rfl

/-- A header that a line is read as is canonical, and its parts are parts of the line. -/
theorem canonical_of_ofLine? {line : Text} {header : DocHeader} (hline : '\n' ∉ line)
    (h : ofLine? line = some header) :
    header.Canonical ∧ ∀ part ∈ [header.qcode, header.flags, header.index, header.name,
      header.signature], part <:+: line := by
  rcases hparts : parts (trim line) with ⟨before, signature⟩
  obtain ⟨hbefore, hcolon, hsignature, htrimmed⟩ := parts_spec hparts
  simp only [ofLine?, hparts] at h
  split at h
  · next hhead =>
    split at h
    · next qcode flags index name more hwords =>
      obtain rfl := Option.some.inj h
      have hword {w : Text} (hw : w ∈ [qcode, flags, index, name]) : w ∈ Text.words before := by
        rw [hwords]
        exact List.mem_append_left more hw
      have hisWord {w : Text} (hw : w ∈ [qcode, flags, index, name]) : IsWord w :=
        isWord_of_mem_words hcolon (hword hw)
      have htrim : trim line <:+: line := Text.trim_isInfix line
      constructor
      · exact {
          qcode_head := head?_of_words hhead hbefore hwords
          qcode := hisWord (by simp)
          flags := hisWord (by simp)
          index := hisWord (by simp)
          name := hisWord (by simp)
          signature_trimmed := htrimmed
          signature_line := fun hfeed => hline ((hsignature.trans htrim).subset hfeed) }
      · intro part hpart
        have hpart : part ∈ [qcode, flags, index, name] ++ [signature] := hpart
        rcases List.mem_append.1 hpart with hw | hw
        · exact ((Text.mem_words (hword hw)).2.1.trans hbefore.isInfix).trans htrim
        · exact List.mem_singleton.1 hw ▸ hsignature.trans htrim
    · simp at h
  · simp at h

end DocHeader

namespace DocBlock

/-- What every doc block is that a comment is read as. -/
structure Canonical (block : DocBlock) : Prop where
  header : block.header.Canonical
  description_trimmed : trim block.description = block.description
  description_lines : ∀ line ∈ Text.lines block.description, trimEnd line = line

theorem body_eq (block : DocBlock) :
    block.body = '\n' :: (block.header.line ++ '\n' :: (block.description ++ ['\n'])) := by
  simp [body, DocHeader.line, DocHeader.fields]

/-! ## Reading a printed block -/

theorem Canonical.line_notMem {block : DocBlock} (h : block.Canonical) :
    '\n' ∉ block.header.line := by
  have hword {w : Text} (hw : DocHeader.IsWord w) : '\n' ∉ w :=
    fun hfeed => absurd (hw.solid _ hfeed) (by decide)
  simp [DocHeader.line, DocHeader.fields, hword h.header.qcode, hword h.header.flags,
    hword h.header.index, hword h.header.name, h.header.signature_line]

theorem Canonical.lines_body {block : DocBlock} (h : block.Canonical) :
    (Text.lines block.body).map trimEnd =
      [] :: trimEnd block.header.line :: (Text.lines block.description ++ [[]]) := by
  have hbody : Text.lines block.body =
      [] :: block.header.line :: (Text.lines block.description ++ [[]]) := by
    rw [body_eq, ← List.nil_append ('\n' :: _), Text.lines_append_cons, Text.lines_append_cons,
      Text.lines_append_cons, Text.lines_of_notMem h.line_notMem]
    rfl
  rw [hbody, List.map_cons, List.map_cons, List.map_append,
    List.map_congr_left h.description_lines, List.map_id']
  rfl

/-- A canonical block is read back from the comment body that prints it. -/
theorem Canonical.ofBody?_body {block : DocBlock} (h : block.Canonical) :
    ofBody? block.origin block.body = some block := by
  obtain ⟨t, ht⟩ := h.header.exists_fields_eq
  have hline : (trimEnd block.header.line).all isBlank = false := by
    rw [DocHeader.line, Text.trimEnd_append_cons (by decide), ht]
    exact List.all_eq_false.2 ⟨'Q', by simp, by decide⟩
  rw [ofBody?, h.lines_body, ofLines?, List.dropWhile_cons_of_pos rfl,
    List.dropWhile_cons_of_neg (by simp [hline])]
  simp only [DocHeader.ofLine?_trimEnd, h.header.ofLine?_line, Option.map_some,
    Text.unlines_concat_nil]
  rw [Text.trim_append_blank (by decide), h.description_trimmed]

/-! ## What a block that is read looks like -/

/-- A block comes from the lines of a comment, less the white space at their ends: one is the
header, some are the description. -/
theorem exists_lines_of_ofBody? {origin : Path} {body : Text} {block : DocBlock}
    (h : ofBody? origin body = some block) :
    ∃ first rest, (∀ line ∈ first :: rest, ∃ l ∈ Text.lines body, trimEnd l = line) ∧
      DocHeader.ofLine? first = some block.header ∧
      block.description = trim (Text.unlines rest) ∧ block.origin = origin := by
  unfold ofBody? ofLines? at h
  split at h
  · simp at h
  · next first rest hlines =>
    obtain ⟨header, hheader, rfl⟩ := Option.map_eq_some_iff.1 h
    refine ⟨first, rest, fun line hline => ?_, hheader, rfl, rfl⟩
    rw [← hlines] at hline
    exact List.mem_map.1 ((List.dropWhile_sublist _).subset hline)

/-- A line less the white space at its end. -/
theorem line_spec {body l line : Text} (hl : l ∈ Text.lines body) (h : trimEnd l = line) :
    line <:+: body ∧ '\n' ∉ line ∧ EndsAt isBlank line := by
  subst h
  have hwithin : trimEnd l <:+: l := (Text.trimEnd_isPrefix l).isInfix
  refine ⟨hwithin.trans (Text.infix_of_mem_lines hl), ?_, Text.endsAt_trimEnd l⟩
  exact fun hfeed => (Text.mem_lines hl).1 (hwithin.subset hfeed)

/-- A block that a comment is read as is canonical. -/
theorem canonical_of_ofBody? {origin : Path} {body : Text} {block : DocBlock}
    (h : ofBody? origin body = some block) : block.Canonical := by
  obtain ⟨first, rest, hlines, hheader, hdescription, -⟩ := exists_lines_of_ofBody? h
  have hspec (line : Text) (hline : line ∈ first :: rest) :
      '\n' ∉ line ∧ EndsAt isBlank line := by
    obtain ⟨l, hl, hlt⟩ := hlines line hline
    exact (line_spec hl hlt).2
  have htidy : Text.Tidy block.description := by
    rw [hdescription]
    refine (Text.tidy_unlines ?_ ?_).of_isInfix (Text.trim_isInfix _)
    · exact fun line hline => (hspec line (List.mem_cons_of_mem _ hline)).1
    · exact fun line hline => (hspec line (List.mem_cons_of_mem _ hline)).2
  have htrimmed : trim block.description = block.description := by
    rw [hdescription, Text.trim_trim]
  refine ⟨?_, htrimmed, fun line hline => ?_⟩
  · exact (DocHeader.canonical_of_ofLine? (hspec first (by simp)).1 hheader).1
  · have hend : EndsAt isBlank block.description := (Text.trim_eq_self_iff.1 htrimmed).2
    exact Text.trimEnd_of_endsAt (Text.endsAt_of_mem_lines htidy hend hline)

theorem noClose_unlines {ls : List Text} (h : ∀ line ∈ ls, NoClose line) :
    NoClose (Text.unlines ls) := by
  induction ls with
  | nil => exact noClose_nil
  | cons line ls ih =>
    have hline : NoClose line := h line (by simp)
    rcases ls with _ | ⟨l, ls⟩
    · simpa [Text.unlines] using hline
    · rw [Text.unlines_cons line (by simp), noClose_append_cons (by decide) (by decide)]
      exact ⟨hline, ih fun m hm => h m (by simp [hm])⟩

theorem noClose_line {header : DocHeader} (h : ∀ part ∈ [header.qcode, header.flags,
    header.index, header.name, header.signature], NoClose part) : NoClose header.line := by
  have hsignature : NoClose (' ' :: header.signature) :=
    (noClose_append_cons (s := []) (by decide) (by decide)).2 ⟨noClose_nil, h _ (by simp)⟩
  simp only [DocHeader.line, DocHeader.fields, List.append_assoc, List.cons_append]
  iterate 4
    refine (noClose_append_cons (by decide) (by decide)).2 ⟨h _ (by simp), ?_⟩
  exact (noClose_append_cons (s := []) (by decide) (by decide)).2 ⟨noClose_nil, hsignature⟩

/-- Printing a block that a comment is read as does not end the comment early. -/
theorem noClose_body {origin : Path} {body : Text} {block : DocBlock} (hbody : NoClose body)
    (h : ofBody? origin body = some block) : NoClose block.body := by
  obtain ⟨first, rest, hlines, hheader, hdescription, -⟩ := exists_lines_of_ofBody? h
  have hline (line : Text) (hline : line ∈ first :: rest) : '\n' ∉ line ∧ NoClose line := by
    obtain ⟨l, hl, hlt⟩ := hlines line hline
    obtain ⟨hwithin, hfeed, _⟩ := line_spec hl hlt
    exact ⟨hfeed, hbody.of_isInfix hwithin⟩
  have hparts := (DocHeader.canonical_of_ofLine? (hline first (by simp)).1 hheader).2
  have hheader : NoClose block.header.line :=
    noClose_line fun part hpart => (hline first (by simp)).2.of_isInfix (hparts part hpart)
  have hdescription : NoClose block.description := by
    rw [hdescription]
    refine (noClose_unlines fun line hmem => ?_).of_isInfix (Text.trim_isInfix _)
    exact (hline line (List.mem_cons_of_mem _ hmem)).2
  rw [body_eq, ← List.nil_append ('\n' :: _)]
  simp only [noClose_append_cons (c := '\n') (by decide) (by decide)]
  exact ⟨noClose_nil, hheader, hdescription, noClose_nil⟩

/-! ## Texts of printed blocks -/

/-- A printed block is one comment. -/
theorem ofText_print_append {block : DocBlock} (h : NoClose block.body) (t : Text) :
    Token.ofText (block.print ++ t) = .comment block.body true :: Token.ofText t := by
  have hraw : NoClose ('*' :: block.body) := by
    rw [body_eq] at h ⊢
    exact Token.noClose_cons.2 ⟨by simp, h⟩
  have hprint : block.print ++ t =
      '/' :: '*' :: ('*' :: block.body) ++ ['*', '/'] ++ ('\n' :: t) := by simp [print]
  rw [hprint, (Token.IsLexeme.docComment hraw).ofText_append]
  exact congrArg _ (Token.ofText_gap_cons (by decide) t)

theorem ofTokens_append (origin : Path) (s t : List Token) :
    ofTokens origin (s ++ t) = ofTokens origin s ++ ofTokens origin t :=
  List.filterMap_append

/-- Canonical blocks are read back from the text that prints them. -/
theorem ofTokens_ofText_flatMap_print {origin : Path} {blocks : List DocBlock}
    (h : ∀ block ∈ blocks, block.Canonical ∧ NoClose block.body ∧ block.origin = origin) :
    ofTokens origin (Token.ofText (blocks.flatMap print)) = blocks := by
  induction blocks with
  | nil => simp [ofTokens, Token.ofText_eq_nil (.inl rfl)]
  | cons block blocks ih =>
    obtain ⟨hcanonical, hclose, horigin⟩ := h block (by simp)
    have hread : ofToken? origin (.comment block.body true) = some block :=
      horigin ▸ hcanonical.ofBody?_body
    rw [List.flatMap_cons, ofText_print_append hclose, ofTokens, List.filterMap_cons_some hread]
    exact congrArg _ (ih fun b hb => h b (List.mem_cons_of_mem _ hb))

theorem spec_of_mem_ofTokens {origin : Path} {t : Text} {block : DocBlock}
    (h : block ∈ ofTokens origin (Token.ofText t)) :
    block.Canonical ∧ NoClose block.body ∧ block.origin = origin := by
  obtain ⟨token, htoken, hread⟩ := List.mem_filterMap.1 h
  unfold ofToken? at hread
  split at hread
  · next body =>
    have hbody : NoClose body := Token.noClose_of_mem_ofText htoken
    obtain ⟨_, _, _, _, _, horigin⟩ := exists_lines_of_ofBody? hread
    exact ⟨canonical_of_ofBody? hread, noClose_body hbody hread, horigin⟩
  · simp at hread

/-- The doc blocks of a text are read again, as they are, from the text that prints them. -/
theorem ofTokens_print_ofTokens (origin : Path) (t : Text) :
    let blocks := ofTokens origin (Token.ofText t)
    ofTokens origin (Token.ofText (blocks.flatMap print)) = blocks :=
  ofTokens_ofText_flatMap_print fun _ h => spec_of_mem_ofTokens h

end DocBlock
end Optable
