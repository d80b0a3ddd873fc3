import Mathlib.Data.List.DropRight
import Optable.Proofs.DocBlock
/-!
# Comment bodies

How the lines of a comment are laid out does not matter to the doc block: blank lines around them,
white space at their ends and in front of the header, and the kind of line end.  What the
description keeps are the lines from the first to the last that is not blank, with the white space
at their starts, except that of the first.
-/

namespace Optable

open Text (isBlank trim trimStart trimEnd StopsAt EndsAt unlines)

namespace Text

/-- Only white space. -/
def isBlankLine (line : Text) : Bool := line.all isBlank

/-- The lines from the first to the last that is not blank. -/
def withoutOuterBlanks (ls : List Text) : List Text :=
  (ls.dropWhile isBlankLine).rdropWhile isBlankLine

/-! ## Blank lines around a text -/

variable {line : Text} {ls : List Text}

theorem isBlankLine_trimEnd (line : Text) : isBlankLine (trimEnd line) = isBlankLine line := by
  obtain ⟨blank, hblank, hline⟩ := exists_eq_append_blank line
  conv => rhs; rw [hline]
  rw [isBlankLine, isBlankLine, List.all_append, hblank, Bool.and_true]

theorem trim_of_isBlankLine (h : isBlankLine line) : trim line = [] := by
  rw [← List.append_nil line, trim_blank_append h]
  rfl

theorem unlines_singleton (line : Text) : unlines [line] = line := by
  simp [unlines]

theorem unlines_concat (h : ls ≠ []) (line : Text) :
    unlines (ls ++ [line]) = unlines ls ++ '\n' :: line := by
  induction ls with
  | nil => exact absurd rfl h
  | cons l ls ih =>
    rw [List.cons_append, unlines_cons l (by simp)]
    by_cases hls : ls = []
    · rw [hls, List.nil_append, unlines_singleton, unlines_singleton]
    · rw [ih hls, unlines_cons l hls, List.append_assoc, List.cons_append]

theorem trim_unlines_cons (h : isBlankLine line) (ls : List Text) :
    trim (unlines (line :: ls)) = trim (unlines ls) := by
  by_cases hls : ls = []
  · rw [hls, unlines_singleton, trim_of_isBlankLine h]
    rfl
  · have hblank : (line ++ ['\n']).all isBlank := by
      rw [List.all_append, Bool.and_eq_true]
      exact ⟨h, by decide⟩
    rw [unlines_cons line hls, List.append_cons, trim_blank_append hblank]

theorem trim_unlines_concat (h : isBlankLine line) (ls : List Text) :
    trim (unlines (ls ++ [line])) = trim (unlines ls) := by
  by_cases hls : ls = []
  · rw [hls, List.nil_append, unlines_singleton, trim_of_isBlankLine h]
    rfl
  · have hblank : ('\n' :: line).all isBlank := by
      rw [List.all_cons, Bool.and_eq_true]
      exact ⟨by decide, h⟩
    rw [unlines_concat hls, trim_append_blank hblank]

theorem trim_unlines_dropWhile (ls : List Text) :
    trim (unlines (ls.dropWhile isBlankLine)) = trim (unlines ls) := by
  induction ls with
  | nil => rfl
  | cons line ls ih =>
    by_cases h : isBlankLine line
    · rw [List.dropWhile_cons_of_pos h, ih, trim_unlines_cons h]
    · rw [List.dropWhile_cons_of_neg h]

theorem trim_unlines_rdropWhile (ls : List Text) :
    trim (unlines (ls.rdropWhile isBlankLine)) = trim (unlines ls) := by
  induction ls using List.reverseRecOn with
  | nil => rfl
  | append_singleton ls line ih =>
    by_cases h : isBlankLine line
    · rw [List.rdropWhile_concat_pos _ _ _ h, ih, trim_unlines_concat h]
    · rw [List.rdropWhile_concat_neg _ _ _ h]

theorem trim_unlines_append {blanks : List Text} (h : ∀ line ∈ blanks, isBlankLine line)
    (ls : List Text) : trim (unlines (ls ++ blanks)) = trim (unlines ls) := by
  induction blanks generalizing ls with
  | nil => rw [List.append_nil]
  | cons line blanks ih =>
    obtain ⟨hline, hblanks⟩ := List.forall_mem_cons.1 h
    rw [List.append_cons, ih hblanks, trim_unlines_concat hline]

/-! ## Where trimming stops -/

theorem trimStart_append (h : ¬ isBlankLine line) (t : Text) :
    trimStart (line ++ t) = trimStart line ++ t := by
  have hne : ¬ (line.dropWhile isBlank).isEmpty := by
    rwa [List.isEmpty_iff, List.dropWhile_eq_nil_iff, ← List.all_eq_true]
  rw [trimStart, List.dropWhile_append, if_neg hne, trimStart]

theorem EndsAt.append {p : Char → Bool} {t : Text} (ht : EndsAt p t) (hne : t ≠ []) (s : Text) :
    EndsAt p (s ++ t) := by
  intro c hc
  rw [List.getLast?_append_of_ne_nil s hne] at hc
  exact ht c hc

theorem endsAt_unlines (hend : ∀ l ∈ ls, EndsAt isBlank l)
    (hlast : ∀ l ∈ ls.getLast?, ¬ isBlankLine l) : EndsAt isBlank (unlines ls) := by
  rcases List.eq_nil_or_concat ls with rfl | ⟨ls, line, rfl⟩
  · exact stopsAt_reverse.1 (stopsAt_nil isBlank)
  · rw [List.concat_eq_append] at hend hlast ⊢
    have hline : EndsAt isBlank line := hend line (by simp)
    have hne : line ≠ [] := by
      rintro rfl
      exact hlast [] (by simp) rfl
    by_cases hls : ls = []
    · rwa [hls, List.nil_append, unlines_singleton]
    · rw [unlines_concat hls, List.append_cons]
      exact hline.append hne _

theorem trim_unlines_withoutOuterBlanks (ls : List Text) :
    trim (unlines (withoutOuterBlanks ls)) = trim (unlines ls) := by
  rw [withoutOuterBlanks, trim_unlines_rdropWhile, trim_unlines_dropWhile]

theorem not_isBlankLine_of_mem_head? (h : line ∈ (withoutOuterBlanks ls).head?) :
    ¬ isBlankLine line := by
  obtain ⟨rest, hrest⟩ := List.head?_eq_some_iff.1 (Option.mem_def.1 h)
  obtain ⟨blanks, hblanks⟩ := List.rdropWhile_prefix isBlankLine (ls.dropWhile isBlankLine)
  have hhead := List.head?_dropWhile_not isBlankLine ls
  rw [← hblanks, ← withoutOuterBlanks, hrest] at hhead
  simpa using hhead

theorem not_isBlankLine_of_mem_getLast? (h : line ∈ (withoutOuterBlanks ls).getLast?) :
    ¬ isBlankLine line := by
  obtain ⟨hne, rfl⟩ := List.mem_getLast?_eq_getLast h
  exact List.rdropWhile_last_not isBlankLine _ hne

theorem mem_of_mem_withoutOuterBlanks (h : line ∈ withoutOuterBlanks ls) : line ∈ ls :=
  (List.dropWhile_sublist _).subset ((List.rdropWhile_prefix _ _).subset h)

end Text

theorem DocHeader.ofLine?_indent {indent : Text} (h : Text.isBlankLine indent) (line : Text) :
    ofLine? (indent ++ line) = ofLine? line := by
  rw [ofLine?, ofLine?, Text.trim_blank_append h]

namespace DocBlock

/-- The description that the lines below a header make. -/
def descriptionOf (ls : List Text) : Text :=
  match Text.withoutOuterBlanks (ls.map trimEnd) with
  | [] => []
  | first :: rest => unlines (trimStart first :: rest)

theorem trim_unlines_map_trimEnd (ls : List Text) :
    trim (unlines (ls.map trimEnd)) = descriptionOf ls := by
  have hend : EndsAt isBlank (unlines (Text.withoutOuterBlanks (ls.map trimEnd))) := by
    refine Text.endsAt_unlines (fun l hl => ?_) fun l => Text.not_isBlankLine_of_mem_getLast?
    obtain ⟨line, -, rfl⟩ := List.mem_map.1 (Text.mem_of_mem_withoutOuterBlanks hl)
    exact Text.endsAt_trimEnd line
  have hfirst (l : Text) (hl : l ∈ (Text.withoutOuterBlanks (ls.map trimEnd)).head?) :
      ¬ Text.isBlankLine l := Text.not_isBlankLine_of_mem_head? hl
  -- Less the blank lines, only white space in front of the first line is left to be trimmed.
  rw [← Text.trim_unlines_withoutOuterBlanks, descriptionOf]
  generalize Text.withoutOuterBlanks (ls.map trimEnd) = kept at hend hfirst
  rcases kept with _ | ⟨first, rest⟩
  · rfl
  · have hfirst : ¬ Text.isBlankLine first := hfirst first rfl
    rw [trim, Text.trimEnd_of_endsAt (hend.of_suffix (Text.trimStart_isSuffix _))]
    change trimStart (unlines (first :: rest)) = unlines (trimStart first :: rest)
    by_cases hrest : rest = []
    · rw [hrest, Text.unlines_singleton, Text.unlines_singleton]
    · rw [Text.unlines_cons first hrest, Text.trimStart_append hfirst, Text.unlines_cons _ hrest]

/-! ## The header among the lines -/

theorem ofLines?_of_blank {origin : Path} {ls : List Text}
    (h : ∀ line ∈ ls, Text.isBlankLine line) : ofLines? origin ls = none := by
  have hnone : ls.dropWhile (·.all isBlank) = [] := List.dropWhile_eq_nil_iff.2 h
  rw [ofLines?, hnone]

theorem ofLines?_append_cons {origin : Path} {before rest : List Text} {header : Text}
    (hbefore : ∀ line ∈ before, Text.isBlankLine line) (hheader : ¬ Text.isBlankLine header) :
    ofLines? origin (before ++ header :: rest) =
      (DocHeader.ofLine? header).map fun h => ⟨h, trim (unlines rest), origin⟩ := by
  have hdrop : (before ++ header :: rest).dropWhile (·.all isBlank) = header :: rest :=
    (List.dropWhile_append_of_pos hbefore).trans (List.dropWhile_cons_of_neg hheader)
  rw [ofLines?, hdrop]

theorem ofLines?_cons {origin : Path} {rest : List Text} {header : Text}
    (hheader : ¬ Text.isBlankLine header) :
    ofLines? origin (header :: rest) =
      (DocHeader.ofLine? header).map fun h => ⟨h, trim (unlines rest), origin⟩ := by
  rw [← List.nil_append (header :: rest), ofLines?_append_cons (List.forall_mem_nil _) hheader]

theorem blank_or_exists_header (ls : List Text) :
    (∀ line ∈ ls, Text.isBlankLine line) ∨ ∃ before header rest, ls = before ++ header :: rest ∧
      (∀ line ∈ before, Text.isBlankLine line) ∧ ¬ Text.isBlankLine header := by
  have hstop := List.head?_dropWhile_not Text.isBlankLine ls
  have hcut := List.takeWhile_append_dropWhile (p := Text.isBlankLine) (l := ls)
  rcases hdrop : ls.dropWhile Text.isBlankLine with _ | ⟨header, rest⟩
  · exact .inl (List.dropWhile_eq_nil_iff.1 hdrop)
  · rw [hdrop] at hstop hcut
    refine .inr ⟨_, header, rest, hcut.symm, ?_, by simpa using hstop⟩
    exact List.all_eq_true.1 List.all_takeWhile

theorem ofLines?_blank_append {origin : Path} {before : List Text}
    (h : ∀ line ∈ before, Text.isBlankLine line) (ls : List Text) :
    ofLines? origin (before ++ ls) = ofLines? origin ls := by
  have hdrop : (before ++ ls).dropWhile (·.all isBlank) = ls.dropWhile (·.all isBlank) :=
    List.dropWhile_append_of_pos h
  rw [ofLines?, hdrop, ofLines?]

theorem ofLines?_append_blank {origin : Path} {after : List Text}
    (h : ∀ line ∈ after, Text.isBlankLine line) (ls : List Text) :
    ofLines? origin (ls ++ after) = ofLines? origin ls := by
  rcases blank_or_exists_header ls with hls | ⟨before, header, rest, rfl, hbefore, hheader⟩
  · rw [ofLines?_blank_append hls, ofLines?_of_blank h, ofLines?_of_blank hls]
  · rw [List.append_assoc, List.cons_append, ofLines?_append_cons hbefore hheader,
      ofLines?_append_cons hbefore hheader, Text.trim_unlines_append h]

theorem forall_isBlankLine_map_trimEnd {ls : List Text} :
    (∀ line ∈ ls.map trimEnd, Text.isBlankLine line) ↔ ∀ line ∈ ls, Text.isBlankLine line := by
  simp only [List.forall_mem_map, Text.isBlankLine_trimEnd]

/-- A comment is a doc block exactly where its first line that is not blank is a header.  The lines
below the header make the description. -/
theorem ofBody?_eq_some_iff {origin : Path} {body : Text} {block : DocBlock} :
    ofBody? origin body = some block ↔ ∃ before header rest,
      Text.lines body = before ++ header :: rest ∧ (∀ line ∈ before, Text.isBlankLine line) ∧
      ¬ Text.isBlankLine header ∧ DocHeader.ofLine? header = some block.header ∧
      block.description = descriptionOf rest ∧ block.origin = origin := by
  have hread {before rest : List Text} {header : Text}
      (hlines : Text.lines body = before ++ header :: rest)
      (hbefore : ∀ line ∈ before, Text.isBlankLine line) (hheader : ¬ Text.isBlankLine header) :
      ofBody? origin body =
        (DocHeader.ofLine? header).map fun h => ⟨h, descriptionOf rest, origin⟩ := by
    have hheader : ¬ Text.isBlankLine (trimEnd header) := by rwa [Text.isBlankLine_trimEnd]
    rw [ofBody?, hlines, List.map_append, List.map_cons,
      ofLines?_append_cons (forall_isBlankLine_map_trimEnd.2 hbefore) hheader,
      DocHeader.ofLine?_trimEnd, trim_unlines_map_trimEnd]
  constructor
  · intro h
    rcases blank_or_exists_header (Text.lines body) with
      hblank | ⟨before, header, rest, hlines, hbefore, hheader⟩
    · rw [ofBody?, ofLines?_of_blank (forall_isBlankLine_map_trimEnd.2 hblank)] at h
      simp at h
    · rw [hread hlines hbefore hheader] at h
      obtain ⟨found, hfound, rfl⟩ := Option.map_eq_some_iff.1 h
      exact ⟨before, header, rest, hlines, hbefore, hheader, hfound, rfl, rfl⟩
  · rintro ⟨before, header, rest, hlines, hbefore, hheader, hfound, hdescription, rfl⟩
    rw [hread hlines hbefore hheader, hfound, Option.map_some, ← hdescription]

/-! ## Layouts of lines -/

/-- White space on one line. -/
structure IsPadding (t : Text) : Prop where
  blank : Text.isBlankLine t
  feed_notMem : '\n' ∉ t

/-- A line with white space at its end. -/
def IsPadded (line written : Text) : Prop := ∃ pad, IsPadding pad ∧ written = line ++ pad

/-- Lines with white space at their ends and in front of the header, which is the first line that
is not blank. -/
inductive IsSpaced : List Text → List Text → Prop
  | nil : IsSpaced [] []
  | blank {line written : Text} {ls ms : List Text} (hline : Text.isBlankLine line)
      (hwritten : IsPadded line written) (h : IsSpaced ls ms) :
      IsSpaced (line :: ls) (written :: ms)
  | header {line indent written : Text} {ls ms : List Text} (hline : ¬ Text.isBlankLine line)
      (hindent : IsPadding indent) (hwritten : IsPadded line written)
      (h : List.Forall₂ IsPadded ls ms) : IsSpaced (line :: ls) ((indent ++ written) :: ms)

/-- What ends a line. -/
inductive IsLineEnd : Text → Prop
  | feed : IsLineEnd ['\n']
  | returnFeed : IsLineEnd ['\r', '\n']

/-- A text in which each line is ended.  The last line may be ended or not. -/
inductive IsWritten : List Text → Text → Prop
  | nil : IsWritten [] []
  | last (line : Text) : IsWritten [line] line
  | ended {line lineEnd t : Text} {ls : List Text} (hend : IsLineEnd lineEnd)
      (h : IsWritten ls t) : IsWritten (line :: ls) (line ++ (lineEnd ++ t))

/-- A comment body that holds the lines, with blank lines before and after them. -/
def IsLayout (ls : List Text) (body : Text) : Prop :=
  ∃ before ms after, (∀ line ∈ before, IsPadding line) ∧ IsSpaced ls ms ∧
    (∀ line ∈ after, IsPadding line) ∧ IsWritten (before ++ (ms ++ after)) body

theorem isWritten_unlines (ls : List Text) : IsWritten ls (unlines ls) := by
  induction ls with
  | nil => exact .nil
  | cons line ls ih =>
    by_cases hls : ls = []
    · rw [hls, Text.unlines_singleton]
      exact .last line
    · rw [Text.unlines_cons line hls]
      exact .ended .feed ih

/-- The lines of a text that is written from lines are these, less the white space at their ends,
and perhaps an empty one. -/
theorem IsWritten.exists_map_trimEnd {ls : List Text} {t : Text} (h : IsWritten ls t)
    (hfeed : ∀ line ∈ ls, '\n' ∉ line) :
    ∃ after, (∀ line ∈ after, Text.isBlankLine line) ∧
      (Text.lines t).map trimEnd = ls.map trimEnd ++ after := by
  induction h with
  | nil => exact ⟨[[]], by decide, rfl⟩
  | last line =>
    refine ⟨[], List.forall_mem_nil _, ?_⟩
    rw [Text.lines_of_notMem (hfeed line List.mem_cons_self), List.append_nil]
  | @ended line lineEnd t ls hend h ih =>
    obtain ⟨hline, hls⟩ := List.forall_mem_cons.1 hfeed
    obtain ⟨after, hafter, hlines⟩ := ih hls
    refine ⟨after, hafter, ?_⟩
    cases hend with
    | feed =>
      rw [List.singleton_append, Text.lines_append_cons, Text.lines_of_notMem hline,
        List.map_append, hlines]
      rfl
    | returnFeed =>
      -- The carriage return stays in the line, as white space at its end.
      have hreturn : '\n' ∉ line ++ ['\r'] := by simpa using hline
      have htrim : trimEnd (line ++ ['\r']) = trimEnd line :=
        Text.trimEnd_append_blank (by decide) line
      rw [List.cons_append, List.singleton_append, List.append_cons, Text.lines_append_cons,
        Text.lines_of_notMem hreturn, List.map_append, hlines, List.map_singleton, htrim]
      rfl

theorem IsWritten.ofBody?_eq {ls : List Text} {t : Text} (h : IsWritten ls t)
    (hfeed : ∀ line ∈ ls, '\n' ∉ line) (origin : Path) :
    ofBody? origin t = ofLines? origin (ls.map trimEnd) := by
  obtain ⟨after, hafter, hlines⟩ := h.exists_map_trimEnd hfeed
  rw [ofBody?, hlines, ofLines?_append_blank hafter]

theorem IsPadded.trimEnd_eq {line written : Text} (h : IsPadded line written) :
    trimEnd written = trimEnd line := by
  obtain ⟨pad, hpad, rfl⟩ := h
  exact Text.trimEnd_append_blank hpad.blank line

theorem map_trimEnd_of_forall₂ {ls ms : List Text} (h : List.Forall₂ IsPadded ls ms) :
    ms.map trimEnd = ls.map trimEnd := by
  induction h with
  | nil => rfl
  | cons hline _ ih => rw [List.map_cons, List.map_cons, hline.trimEnd_eq, ih]

theorem IsPadded.feed_notMem {line written : Text} (h : IsPadded line written)
    (hline : '\n' ∉ line) : '\n' ∉ written := by
  obtain ⟨pad, hpad, rfl⟩ := h
  simpa [hline] using hpad.feed_notMem

theorem feed_notMem_of_forall₂ {ls ms : List Text} (h : List.Forall₂ IsPadded ls ms)
    (hfeed : ∀ line ∈ ls, '\n' ∉ line) : ∀ line ∈ ms, '\n' ∉ line := by
  induction h with
  | nil => exact hfeed
  | cons hwritten _ ih =>
    obtain ⟨hline, hls⟩ := List.forall_mem_cons.1 hfeed
    exact List.forall_mem_cons.2 ⟨hwritten.feed_notMem hline, ih hls⟩

theorem IsSpaced.feed_notMem {ls ms : List Text} (h : IsSpaced ls ms)
    (hfeed : ∀ line ∈ ls, '\n' ∉ line) : ∀ line ∈ ms, '\n' ∉ line := by
  induction h with
  | nil => exact hfeed
  | blank _ hwritten _ ih =>
    obtain ⟨hline, hls⟩ := List.forall_mem_cons.1 hfeed
    exact List.forall_mem_cons.2 ⟨hwritten.feed_notMem hline, ih hls⟩
  | @header line indent written ls ms _ hindent hwritten h =>
    obtain ⟨hline, hls⟩ := List.forall_mem_cons.1 hfeed
    have hheader : '\n' ∉ indent ++ written := by
      simpa [hindent.feed_notMem] using hwritten.feed_notMem hline
    exact List.forall_mem_cons.2 ⟨hheader, feed_notMem_of_forall₂ h hls⟩

theorem IsSpaced.ofLines?_eq {ls ms : List Text} (h : IsSpaced ls ms) (origin : Path) :
    ofLines? origin (ms.map trimEnd) = ofLines? origin (ls.map trimEnd) := by
  induction h with
  | nil => rfl
  | @blank line written ls ms hline hwritten h ih =>
    have hblank : ∀ l ∈ [trimEnd line], Text.isBlankLine l := by
      simpa [Text.isBlankLine_trimEnd] using hline
    rw [List.map_cons, List.map_cons, hwritten.trimEnd_eq, ← List.singleton_append,
      ofLines?_blank_append hblank, ih, ← List.singleton_append, ofLines?_blank_append hblank]
  | @header line indent written ls ms hline hindent hwritten h =>
    have hheader : ¬ Text.isBlankLine (trimEnd line) := by rwa [Text.isBlankLine_trimEnd]
    have hwrittenHeader : ¬ Text.isBlankLine (trimEnd (indent ++ written)) := by
      intro hblank
      rw [Text.isBlankLine_trimEnd, Text.isBlankLine, List.all_append, Bool.and_eq_true] at hblank
      rw [← Text.isBlankLine_trimEnd, ← hwritten.trimEnd_eq, Text.isBlankLine_trimEnd] at hline
      exact hline hblank.2
    have hread : DocHeader.ofLine? (trimEnd (indent ++ written)) =
        DocHeader.ofLine? (trimEnd line) := by
      rw [DocHeader.ofLine?_trimEnd, DocHeader.ofLine?_indent hindent.blank,
        ← DocHeader.ofLine?_trimEnd written, hwritten.trimEnd_eq]
    rw [List.map_cons, List.map_cons, ofLines?_cons hwrittenHeader, ofLines?_cons hheader, hread,
      map_trimEnd_of_forall₂ h]

theorem ofBody?_of_isLayout {ls : List Text} {body : Text} (hfeed : ∀ line ∈ ls, '\n' ∉ line)
    (h : IsLayout ls body) (origin : Path) :
    ofBody? origin body = ofBody? origin (unlines ls) := by
  obtain ⟨before, ms, after, hbefore, hspaced, hafter, hwritten⟩ := h
  have hpadding {pads : List Text} (hpads : ∀ line ∈ pads, IsPadding line) :
      ∀ line ∈ pads.map trimEnd, Text.isBlankLine line :=
    forall_isBlankLine_map_trimEnd.2 fun line hline => (hpads line hline).blank
  have hwrittenFeed : ∀ line ∈ before ++ (ms ++ after), '\n' ∉ line := by
    simp only [List.forall_mem_append]
    exact ⟨fun line hline => (hbefore line hline).feed_notMem, hspaced.feed_notMem hfeed,
      fun line hline => (hafter line hline).feed_notMem⟩
  rw [hwritten.ofBody?_eq hwrittenFeed, List.map_append, List.map_append,
    ofLines?_blank_append (hpadding hbefore), ofLines?_append_blank (hpadding hafter),
    hspaced.ofLines?_eq, (isWritten_unlines ls).ofBody?_eq hfeed]

/-- A comment is read as its lines are, however they are laid out.  It is a doc block exactly where
its first line that is not blank is a header; then the lines below make the description. -/
theorem ofBody?_layout (origin : Path) :
    (∀ ls body, (∀ line ∈ ls, '\n' ∉ line) → IsLayout ls body →
      ofBody? origin body = ofBody? origin (unlines ls)) ∧
    ∀ body block, ofBody? origin body = some block ↔ ∃ before header rest,
      Text.lines body = before ++ header :: rest ∧ (∀ line ∈ before, Text.isBlankLine line) ∧
      ¬ Text.isBlankLine header ∧ DocHeader.ofLine? header = some block.header ∧
      block.description = descriptionOf rest ∧ block.origin = origin :=
  ⟨fun _ _ hfeed h => ofBody?_of_isLayout hfeed h origin, fun _ _ => ofBody?_eq_some_iff⟩

/-- The lines of a comment. -/
def identityLines : List Text :=
  ["Q0 OK 1 id : ->".toList, "  Identity.".toList, [], "  No change.".toList]

/-- A body with these lines, blank lines around them, and line ends of both kinds. -/
def identityBody : Text :=
  " \n\tQ0 OK 1 id : -> \r\n  Identity.\r\n\t\n  No change.\n \t".toList

/-- The doc block that both are read as. -/
def identityBlock : DocBlock where
  header := ⟨"Q0".toList, "OK".toList, "1".toList, "id".toList, "->".toList⟩
  description := "Identity.\n\n  No change.".toList
  origin := Path.ofString "t.c"

theorem ofBody?_identityBody :
    (∀ line ∈ identityLines, '\n' ∉ line) ∧ IsLayout identityLines identityBody ∧
      ofBody? identityBlock.origin identityBody = some identityBlock ∧
      ofBody? identityBlock.origin (unlines identityLines) = some identityBlock := by
  have hfeed : ∀ line ∈ identityLines, '\n' ∉ line := by decide
  have hpadded (line pad : Text) (hblank : Text.isBlankLine pad) (hpad : '\n' ∉ pad) :
      IsPadded line (line ++ pad) := ⟨pad, ⟨hblank, hpad⟩, rfl⟩
  have hspaced : IsSpaced identityLines ["\tQ0 OK 1 id : -> ".toList, "  Identity.".toList,
      "\t".toList, "  No change.".toList] :=
    .header (by decide) (⟨by decide, by decide⟩ : IsPadding ['\t'])
      (hpadded "Q0 OK 1 id : ->".toList [' '] (by decide) (by decide))
      (.cons (hpadded _ [] (by decide) (by decide))
        (.cons (hpadded [] ['\t'] (by decide) (by decide))
          (.cons (hpadded _ [] (by decide) (by decide)) .nil)))
  have hwritten : IsWritten [[' '], "\tQ0 OK 1 id : -> ".toList, "  Identity.".toList,
      "\t".toList, "  No change.".toList, " \t".toList] identityBody :=
    .ended .feed (.ended .returnFeed (.ended .returnFeed (.ended .feed (.ended .feed (.last _)))))
  have hlayout : IsLayout identityLines identityBody := by
    refine ⟨[[' ']], _, [" \t".toList], ?_, hspaced, ?_, hwritten⟩
    · rintro line hline
      obtain rfl := List.mem_singleton.1 hline
      exact ⟨by decide, by decide⟩
    · rintro line hline
      obtain rfl := List.mem_singleton.1 hline
      exact ⟨by decide, by decide⟩
  obtain ⟨hlaid, hread⟩ := ofBody?_layout identityBlock.origin
  have hbody : ofBody? identityBlock.origin identityBody = some identityBlock :=
    (hread _ _).2 ⟨[[' ']], "\tQ0 OK 1 id : -> \r".toList, ["  Identity.\r".toList, "\t".toList,
      "  No change.".toList, " \t".toList], by decide, by decide, by decide, by decide, by decide,
      rfl⟩
  exact ⟨hfeed, hlayout, hbody, (hlaid _ _ hfeed hlayout).symm.trans hbody⟩

end DocBlock

end Optable
