import Mathlib.Data.List.Basic
import Optable.Proofs.DocBlock
import Optable.Proofs.Index
import Optable.Proofs.Quoting
import Optable.Proofs.Rows
/-!
# The table, line by line

No field of a row holds a line feed: codes, index and symbol come from words, and the other fields
are escaped.  So the lines of the table are its rows.  Nor does an index text hold a star, so the
comment at the start of a line ends where the row ends it, and the index can be read back.
-/

namespace Optable

/-- The part of a text before the first place where another one stands. -/
def Text.before? (p : Text) : Text → Option Text
  | [] => if p = [] then some [] else none
  | c :: t => if p.isPrefixOf (c :: t) then some [] else (before? p t).map (c :: ·)

/-- The index of a doc block, if it is a number in range. -/
def DocBlock.index? (block : DocBlock) : Option Int :=
  match Index.read block.header.index with
  | .number index => some index
  | _ => none

namespace Artifact

/-- A row without the line feed at its end. -/
def rowLine (e : Entry) : Text := (row e).dropLast

/-- The index in the comment at the start of a line. -/
def lineIndex? (line : Text) : Option Int :=
  match Text.before? " */".toList line with
  | some ('/' :: '*' :: ' ' :: comment) =>
    match Index.read (Text.trim comment) with
    | .number index => some index
    | _ => none
  | _ => none

end Artifact

/-! ## What rows are made of -/

theorem Index.ne_of_mem_of_read {t : Text} {i : Int} {c : Char} (h : read t = .number i)
    (hc : c ∈ t) : c = '+' ∨ c = '-' ∨ c.isDigit := by
  cases spells_of_read_eq_number h with
  | unsigned _ hdigits => exact .inr (.inr (hdigits c hc))
  | plus _ hdigits => exact (List.mem_cons.1 hc).imp_right fun hc => .inr (hdigits c hc)
  | minus _ hdigits => exact .inr ((List.mem_cons.1 hc).imp_right fun hc => hdigits c hc)

namespace Symbol

theorem afterMarker?_isSuffix {t tail : Text} (h : afterMarker? t = some tail) : tail <:+ t := by
  induction t with
  | nil => simp [afterMarker?] at h
  | cons c t ih =>
    rw [afterMarker?] at h
    split at h
    · next found hfound =>
      obtain rfl := Option.some.inj h
      exact (ih hfound).trans (List.suffix_cons c t)
    · split at h
      · obtain rfl := Option.some.inj h
        exact (List.tail_suffix t).trans (List.suffix_cons c t)
      · simp at h

theorem internalName_isSuffix (name : Text) : internalName name <:+ name := by
  rw [internalName]
  cases h : afterMarker? name with
  | none => exact List.suffix_rfl
  | some tail => exact afterMarker?_isSuffix h

/-- A symbol has no characters but those of the name, and the letters of its suffix. -/
theorem mem_ofName {name : Text} {c : Char} (h : c ∈ ofName name) :
    c ∈ name ∨ c ∈ auxiliarySuffix := by
  have hsuffix : c ∈ suffix → c ∈ auxiliarySuffix :=
    fun h => List.mem_append_right ['a', 'u', 'x'] h
  have hname : c ∈ internalName name → c ∈ name := fun h => (internalName_isSuffix name).subset h
  unfold ofName ofInternalName at h
  split at h
  · next base hbase =>
    refine (List.mem_append.1 h).imp_left fun h => hname ?_
    rw [hbase]
    exact List.mem_cons_of_mem _ h
  · exact (List.mem_append.1 h).imp hname hsuffix

end Symbol

namespace Entry

/-- An entry whose row is one line with its index in front. -/
structure IsOneLine (e : Entry) : Prop where
  index_read : Index.read e.indexText = .number e.index
  index_solid : ∀ c ∈ e.indexText, Text.isBlank c = false
  fields : ∀ field ∈ [e.qcode, e.flags, e.name, e.symbol, e.signature, e.description],
    '\n' ∉ field

theorem isOneLine_of_ofBlock? {block : DocBlock} {e : Entry} (hblock : block.Canonical)
    (h : ofBlock? block = some e) : e.IsOneLine := by
  have hsolid {w : Text} (hw : DocHeader.IsWord w) : '\n' ∉ w :=
    fun hfeed => absurd (hw.solid _ hfeed) (by decide)
  have hheader := hblock.header
  unfold ofBlock? at h
  split at h
  · next index hread =>
    obtain rfl := Option.some.inj h
    refine ⟨hread, hheader.index.solid, ?_⟩
    have hsymbol : '\n' ∉ Symbol.ofName block.header.name := by
      intro hfeed
      rcases Symbol.mem_ofName hfeed with hname | hsuffix
      · exact hsolid hheader.name hname
      · exact absurd hsuffix (by decide)
    simp only [make, List.forall_mem_cons]
    exact ⟨hsolid hheader.qcode, hsolid hheader.flags, Literal.newline_notMem_escape _, hsymbol,
      Literal.newline_notMem_escape _, Literal.newline_notMem_escape _, List.forall_mem_nil _⟩
  · simp at h

theorem isOneLine_of_mem_entries {set : SourceSet} {e : Entry}
    (h : e ∈ (Assembly.ofSources set).entries) : e.IsOneLine := by
  obtain ⟨block, hblock, hentry⟩ := Assembly.exists_block_of_mem_entries h
  obtain ⟨file, -, hfile⟩ := List.mem_flatMap.1 hblock
  exact isOneLine_of_ofBlock? (DocBlock.spec_of_mem_ofTokens hfile).1 hentry

end Entry

/-! ## One row -/

namespace Artifact

variable {e : Entry}

/-- The index text with the spaces that fill it up. -/
def indexColumn (e : Entry) : Text := List.leftpad indexWidth ' ' e.indexText

/-- What a row holds behind the comment with the index. -/
def record (e : Entry) : Text :=
  " \x7b ".toList ++ e.qcode ++ ", ".toList ++ e.flags ++ ", ".toList ++ Literal.quoted e.name
    ++ ", ".toList ++ e.symbol ++ ", ".toList ++ Literal.quoted e.signature ++ ", ".toList
    ++ Literal.quoted e.description ++ " \x7d,".toList

theorem row_eq_record (e : Entry) :
    row e = "/* ".toList ++ indexColumn e ++ (" */".toList ++ record e) ++ ['\n'] := by
  have hopen : " */ \x7b ".toList = " */".toList ++ " \x7b ".toList := rfl
  have hclose : " \x7d,\n".toList = " \x7d,".toList ++ ['\n'] := rfl
  unfold row indexColumn record
  rw [hopen, hclose]
  simp only [List.append_assoc]

theorem rowLine_eq (e : Entry) :
    rowLine e = "/* ".toList ++ indexColumn e ++ (" */".toList ++ record e) := by
  rw [rowLine, row_eq_record, List.dropLast_concat]

theorem row_eq_rowLine (e : Entry) : row e = rowLine e ++ ['\n'] := by
  rw [rowLine_eq, row_eq_record]

theorem isPrefix_rowLine (e : Entry) : "/* ".toList <+: rowLine e := by
  rw [rowLine_eq, List.append_assoc]
  exact List.prefix_append _ _

theorem mem_indexColumn {c : Char} (h : c ∈ indexColumn e) : c = ' ' ∨ c ∈ e.indexText := by
  rw [indexColumn, List.leftpad, List.mem_append] at h
  exact h.imp_left List.eq_of_mem_replicate

theorem feed_notMem_rowLine (h : e.IsOneLine) : '\n' ∉ rowLine e := by
  have hfields := h.fields
  simp only [List.forall_mem_cons] at hfields
  obtain ⟨hqcode, hflags, hname, hsymbol, hsignature, hdescription, -⟩ := hfields
  have hindex : '\n' ∉ indexColumn e := by
    intro hfeed
    rcases mem_indexColumn hfeed with hspace | htext
    · exact absurd hspace (by decide)
    · exact absurd (h.index_solid _ htext) (by decide)
  have hrecord : '\n' ∉ record e := by
    have hopen : '\n' ∉ " \x7b ".toList := by decide
    have hcomma : '\n' ∉ ", ".toList := by decide
    have hclose : '\n' ∉ " \x7d,".toList := by decide
    have hquoted {t : Text} (ht : '\n' ∉ t) : '\n' ∉ Literal.quoted t := by
      simpa [Literal.quoted] using ht
    unfold record
    simp only [List.mem_append, not_or]
    exact ⟨⟨⟨⟨⟨⟨⟨⟨⟨⟨⟨⟨hopen, hqcode⟩, hcomma⟩, hflags⟩, hcomma⟩, hquoted hname⟩, hcomma⟩, hsymbol⟩,
      hcomma⟩, hquoted hsignature⟩, hcomma⟩, hquoted hdescription⟩, hclose⟩
  have hstart : '\n' ∉ "/* ".toList := by decide
  have hend : '\n' ∉ " */".toList := by decide
  simp only [rowLine_eq, List.mem_append, not_or]
  exact ⟨⟨hstart, hindex⟩, hend, hrecord⟩

theorem before?_cons_of_ne {c : Char} (hc : c ≠ ' ') (t : Text) :
    Text.before? " */".toList (c :: t) = (Text.before? " */".toList t).map (c :: ·) := by
  have hclose : ¬ " */".toList <+: c :: t := fun h => hc (List.cons_prefix_cons.1 h).1.symm
  rw [Text.before?, if_neg (by rwa [List.isPrefixOf_iff_prefix])]

/-- A comment without stars ends at the first closing delimiter behind a space. -/
theorem before?_append {w : Text} (h : '*' ∉ w) (t : Text) :
    Text.before? " */".toList (w ++ (" */".toList ++ t)) = some w := by
  induction w with
  | nil => rfl
  | cons c w ih =>
    obtain ⟨-, hw⟩ := not_or.1 (mt List.mem_cons.2 h)
    have hclose : ¬ " */".toList <+: c :: (w ++ (" */".toList ++ t)) := by
      intro hprefix
      have hstar : "*/".toList <+: w ++ (" */".toList ++ t) := (List.cons_prefix_cons.1 hprefix).2
      rcases w with _ | ⟨d, w⟩
      · exact absurd (List.cons_prefix_cons.1 hstar).1 (by decide)
      · exact hw ((List.cons_prefix_cons.1 hstar).1 ▸ List.mem_cons_self)
    rw [List.cons_append, Text.before?, if_neg (by rwa [List.isPrefixOf_iff_prefix]), ih hw]
    rfl

theorem star_notMem_indexColumn (h : e.IsOneLine) : '*' ∉ indexColumn e := by
  intro hstar
  rcases mem_indexColumn hstar with hspace | htext
  · exact absurd hspace (by decide)
  · rcases Index.ne_of_mem_of_read h.index_read htext with hplus | hminus | hdigit
    · exact absurd hplus (by decide)
    · exact absurd hminus (by decide)
    · exact absurd hdigit (by decide)

theorem trim_indexColumn (h : e.IsOneLine) : Text.trim (indexColumn e) = e.indexText := by
  have hstart : Text.StopsAt Text.isBlank e.indexText :=
    fun c hc => h.index_solid c (List.mem_of_mem_head? hc)
  have hend : Text.EndsAt Text.isBlank e.indexText :=
    fun c hc => h.index_solid c (List.mem_of_mem_getLast? hc)
  have hfill (n : Nat) : (List.replicate n ' ').all Text.isBlank := by
    rw [List.all_replicate]
    split
    · rfl
    · decide
  rw [indexColumn, List.leftpad, Text.trim_blank_append (hfill _), Text.trim_of_stopsAt hstart hend]

/-- The index of an entry is read back from its line. -/
theorem lineIndex?_rowLine (h : e.IsOneLine) : lineIndex? (rowLine e) = some e.index := by
  have hspace : '*' ∉ ' ' :: indexColumn e := by simpa using star_notMem_indexColumn h
  have hcomment : Text.before? " */".toList (rowLine e) =
      some ('/' :: '*' :: ' ' :: indexColumn e) := by
    have hline : rowLine e =
        '/' :: '*' :: (' ' :: indexColumn e ++ (" */".toList ++ record e)) := by
      rw [rowLine_eq, List.append_assoc]
      rfl
    have hinner := before?_append hspace (record e)
    rw [hline, before?_cons_of_ne (by decide), before?_cons_of_ne (by decide), hinner]
    rfl
  rw [lineIndex?, hcomment]
  simp only [trim_indexColumn h, h.index_read]

/-! ## All rows -/

theorem renderTable_cons (e : Entry) (entries : List Entry) :
    renderTable (e :: entries) = rowLine e ++ '\n' :: renderTable entries := by
  rw [renderTable, List.flatMap_cons, row_eq_rowLine, List.append_assoc]
  rfl

theorem lines_renderTable {entries : List Entry} (h : ∀ e ∈ entries, e.IsOneLine) :
    Text.lines (renderTable entries) = entries.map rowLine ++ [[]] := by
  induction entries with
  | nil => rfl
  | cons e entries ih =>
    have hfeed : '\n' ∉ rowLine e := feed_notMem_rowLine (h e List.mem_cons_self)
    have hrest := ih fun e he => h e (List.mem_cons_of_mem _ he)
    rw [renderTable_cons, Text.lines_append_cons, Text.lines_of_notMem hfeed, hrest]
    rfl

theorem count_feed_renderTable {entries : List Entry} (h : ∀ e ∈ entries, e.IsOneLine) :
    (renderTable entries).count '\n' = entries.length := by
  induction entries with
  | nil => rfl
  | cons e entries ih =>
    have hfeed : '\n' ∉ rowLine e := feed_notMem_rowLine (h e List.mem_cons_self)
    have hrest := ih fun e he => h e (List.mem_cons_of_mem _ he)
    rw [renderTable_cons, List.count_append, List.count_eq_zero.2 hfeed, List.count_cons_self,
      hrest, List.length_cons]
    omega

theorem getLast?_renderTable {entries : List Entry} (hne : renderTable entries ≠ []) :
    (renderTable entries).getLast? = some '\n' := by
  induction entries with
  | nil => exact absurd rfl hne
  | cons e entries ih =>
    rw [renderTable_cons, List.getLast?_append, List.getLast?_cons]
    by_cases hrest : renderTable entries = []
    · rw [hrest]
      rfl
    · rw [ih hrest]
      rfl

end Artifact

theorem DocBlock.filterMap_index? (blocks : List DocBlock) :
    blocks.filterMap index? = (Entry.ofBlocks blocks).map (·.index) := by
  have hindex (block : DocBlock) : index? block = (Entry.ofBlock? block).map (·.index) := by
    unfold index? Entry.ofBlock?
    cases Index.read block.header.index <;> rfl
  rw [Entry.ofBlocks, List.map_filterMap]
  exact List.filterMap_congr fun block _ => hindex block

/-- The table holds one line for each entry, and every line ends.  The lines are the rows; each
starts with a comment in which the index of its entry can be read.  The indices that are read
ascend, and they are those of the doc blocks that have one. -/
theorem Assembly.exists_rows_renderTable (set : SourceSet) :
    let entries := (ofSources set).entries
    let table := Artifact.render (ofSources set) .table
    table.count '\n' = entries.length ∧ (table ≠ [] → table.getLast? = some '\n') ∧
    ∃ rows indices, Text.lines table = rows ++ [[]] ∧
      rows.map (· ++ ['\n']) = entries.map Artifact.row ∧
      (∀ row ∈ rows, "/* ".toList <+: row) ∧
      rows.map Artifact.lineIndex? = indices.map some ∧ indices = entries.map (·.index) ∧
      indices.Pairwise (· ≤ ·) ∧ indices.Perm (set.blocks.filterMap DocBlock.index?) := by
  intro entries table
  have hline : ∀ e ∈ entries, e.IsOneLine := fun e he => Entry.isOneLine_of_mem_entries he
  have hordered : Entry.IsOrdered (Entry.ofBlocks set.blocks) entries := Entry.isOrdered_order _
  refine ⟨Artifact.count_feed_renderTable hline, ?_, entries.map Artifact.rowLine,
    entries.map (·.index), Artifact.lines_renderTable hline, ?_, ?_, ?_, rfl, ?_, ?_⟩
  · exact Artifact.getLast?_renderTable
  · simp only [List.map_map, Function.comp_def, ← Artifact.row_eq_rowLine]
  · intro row hrow
    obtain ⟨e, -, rfl⟩ := List.mem_map.1 hrow
    exact Artifact.isPrefix_rowLine e
  · rw [List.map_map, List.map_map]
    refine List.map_congr_left fun e he => ?_
    rw [Function.comp_apply, Function.comp_apply, Artifact.lineIndex?_rowLine (hline e he)]
  · exact List.pairwise_map.2 hordered.ascending
  · rw [DocBlock.filterMap_index?]
    exact hordered.perm.map _

end Optable
