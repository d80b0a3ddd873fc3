import Optable.Entry
import Optable.Proofs.Index
/-!
# What becomes of doc blocks

The index text of a doc block alone decides whether the block becomes a row, is left out with a
warning, or is left out silently.  Rows and warnings come in the order of their blocks.
-/

namespace Optable.Entry

open Index (Fits64 Overshoots Spells)

/-- A row of the table for a doc block with a given index. -/
structure IsRow (block : DocBlock) (v : Int) (row : Entry) : Prop where
  index_eq : row.index = v
  indexText_eq : row.indexText = block.header.index
  qcode_eq : row.qcode = block.header.qcode
  flags_eq : row.flags = block.header.flags
  name_eq : row.name = Literal.escape block.header.name
  symbol_eq : row.symbol = Symbol.ofName block.header.name
  signature_eq : row.signature = Literal.escape block.header.signature
  description_eq : row.description = Literal.escape block.description

/-- The fates of doc blocks: the rows that they become and the warnings about those left out. -/
inductive Fates : List DocBlock → List Entry → List Warning → Prop
  | nil : Fates [] [] []
  | row {block : DocBlock} {blocks : List DocBlock} {row : Entry} {rows : List Entry}
      {ws : List Warning} {v : Int} (hspells : Spells block.header.index v)
      (hfits : Fits64 v) (hrow : IsRow block v row) (h : Fates blocks rows ws) :
      Fates (block :: blocks) (row :: rows) ws
  | warned {block : DocBlock} {blocks : List DocBlock} {rows : List Entry} {ws : List Warning}
      (hindex : Overshoots block.header.index) (h : Fates blocks rows ws) :
      Fates (block :: blocks) rows
        (.indexOutOfRange block.origin block.header.index block.header.name :: ws)
  | silent {block : DocBlock} {blocks : List DocBlock} {rows : List Entry} {ws : List Warning}
      (hnumber : ∀ v, Spells block.header.index v → ¬ Fits64 v)
      (hindex : ¬ Overshoots block.header.index) (h : Fates blocks rows ws) :
      Fates (block :: blocks) rows ws

variable {block : DocBlock} {blocks : List DocBlock} {row : Entry} {rows : List Entry}
  {ws : List Warning} {v : Int}

theorem isRow_make (v : Int) (block : DocBlock) : IsRow block v (make v block) :=
  ⟨rfl, rfl, rfl, rfl, rfl, rfl, rfl, rfl⟩

theorem IsRow.eq_make (h : IsRow block v row) : row = make v block := by
  obtain ⟨hindex, hindexText, hqcode, hflags, hname, hsymbol, hsignature, hdescription⟩ := h
  cases row
  simp_all [make]

theorem notNumber_iff : Index.read block.header.index = .notNumber ↔
    (∀ v, Spells block.header.index v → ¬ Fits64 v) ∧
      ¬ Overshoots block.header.index := by
  simp only [Index.read_eq_notNumber_iff, Index.inRange_iff]

/-! ## One block in front of others -/

theorem ofBlocks_cons (block : DocBlock) (blocks : List DocBlock) :
    ofBlocks (block :: blocks) = (ofBlock? block).toList ++ ofBlocks blocks := by
  rw [ofBlocks, List.filterMap_cons, ofBlocks]
  cases ofBlock? block <;> rfl

theorem warnings_cons (block : DocBlock) (blocks : List DocBlock) :
    warnings (block :: blocks) = (warning? block).toList ++ warnings blocks := by
  rw [warnings, List.filterMap_cons, warnings]
  cases warning? block <;> rfl

/-! ## All blocks -/

theorem Fates.eq_ofBlocks (h : Fates blocks rows ws) :
    rows = ofBlocks blocks ∧ ws = warnings blocks := by
  induction h with
  | nil => exact ⟨rfl, rfl⟩
  | row hspells hfits hrow _ ih =>
    obtain ⟨rfl, rfl⟩ := ih
    obtain rfl := hrow.eq_make
    have hread := Index.read_eq_number_iff.2 ⟨hspells, Index.inRange_iff.2 hfits⟩
    rw [ofBlocks_cons, warnings_cons, ofBlock?, warning?, hread]
    exact ⟨rfl, rfl⟩
  | warned hindex _ ih =>
    obtain ⟨rfl, rfl⟩ := ih
    have hread := Index.read_eq_outOfRange_iff.2 hindex
    rw [ofBlocks_cons, warnings_cons, ofBlock?, warning?, hread]
    exact ⟨rfl, rfl⟩
  | silent hnumber hindex _ ih =>
    obtain ⟨rfl, rfl⟩ := ih
    have hread := notNumber_iff.2 ⟨hnumber, hindex⟩
    rw [ofBlocks_cons, warnings_cons, ofBlock?, warning?, hread]
    exact ⟨rfl, rfl⟩

theorem fates_ofBlocks (blocks : List DocBlock) :
    Fates blocks (ofBlocks blocks) (warnings blocks) := by
  induction blocks with
  | nil => exact .nil
  | cons block blocks ih =>
    rw [ofBlocks_cons, warnings_cons, ofBlock?, warning?]
    cases hread : Index.read block.header.index with
    | number v =>
      obtain ⟨hspells, hfits⟩ := Index.read_eq_number_iff.1 hread
      exact .row hspells (Index.inRange_iff.1 hfits) (isRow_make v block) ih
    | outOfRange => exact .warned (Index.read_eq_outOfRange_iff.1 hread) ih
    | notNumber =>
      obtain ⟨hnumber, hindex⟩ := notNumber_iff.1 hread
      exact .silent hnumber hindex ih

/-- The rows and the warnings are those of the three fates of the blocks, and no index text has two
of the fates. -/
theorem fates_iff (blocks : List DocBlock) :
    (∀ rows ws, Fates blocks rows ws ↔ rows = ofBlocks blocks ∧ ws = warnings blocks) ∧
    ∀ index, ¬ ((∃ v, Spells index v ∧ Fits64 v) ∧ Overshoots index) := by
  refine ⟨fun rows ws => ⟨Fates.eq_ofBlocks, ?_⟩, ?_⟩
  · rintro ⟨rfl, rfl⟩
    exact fates_ofBlocks blocks
  · rintro index ⟨⟨v, hspells, hfits⟩, hindex⟩
    have hnumber := Index.read_eq_number_iff.2 ⟨hspells, Index.inRange_iff.2 hfits⟩
    rw [← Index.read_eq_outOfRange_iff, hnumber] at hindex
    simp at hindex

/-- A block with nothing but an index text and a name. -/
def bareBlock (index : Text) : DocBlock := ⟨⟨[], [], index, "a".toList, []⟩, [], ⟨[]⟩⟩

/-- A number with a sign and zeros in front of it, one that is just out of range with a letter
behind it, and a sign alone. -/
theorem fates_bareBlocks :
    let blocks := [bareBlock "+007".toList, bareBlock "9223372036854775808x".toList,
      bareBlock "-".toList]
    let ws := [Warning.indexOutOfRange ⟨[]⟩ "9223372036854775808x".toList "a".toList]
    ∃ row, row.index = 7 ∧ row.indexText = "+007".toList ∧ Fates blocks [row] ws ∧
      ofBlocks blocks = [row] ∧ warnings blocks = ws := by
  intro blocks ws
  have hseven : Spells "+007".toList 7 := .plus (by decide) (List.all_eq_true.1 rfl)
  have hnumber : Spells "9223372036854775808".toList 9223372036854775808 :=
    .unsigned (by decide) (List.all_eq_true.1 rfl)
  have hbeyond : Overshoots "9223372036854775808x".toList :=
    ⟨_, ['x'], _, rfl, hnumber, fun h => absurd h.2 (by decide), Text.stopsAt_cons.2 (by decide)⟩
  have hsign : Index.read (bareBlock "-".toList).header.index = .notNumber := by decide
  obtain ⟨hnone, hindex⟩ := notNumber_iff.1 hsign
  have hfates : Fates blocks [make 7 (bareBlock "+007".toList)] ws :=
    .row hseven ⟨by decide, by decide⟩ (isRow_make _ _)
      (.warned hbeyond (.silent hnone hindex .nil))
  obtain ⟨hrows, hwarnings⟩ := ((fates_iff blocks).1 _ _).1 hfates
  exact ⟨_, rfl, rfl, hfates, hrows.symm, hwarnings.symm⟩

end Optable.Entry
