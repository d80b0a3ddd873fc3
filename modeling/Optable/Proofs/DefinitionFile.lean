import Optable.Assembly
import Optable.Proofs.Definition
import Optable.Proofs.Rows
import Optable.Proofs.Symbols
/-!
# Files of definitions

Files of definitions, written out as text and scanned together, are assembled into one row for each
definition, ordered by index, and into sections that hold the symbols of the definitions and
nothing else.
-/

namespace Optable

/-- A file of definitions. -/
structure DefinitionFile where
  path : Path
  definitions : List Definition

/-- The file as source text. -/
def DefinitionFile.source (file : DefinitionFile) : SourceFile where
  path := file.path
  text := file.definitions.flatMap Definition.text

/-- Files of definitions as the grouped files of a run. -/
def SourceSet.ofDefinitions (root : Path) (files : List DefinitionFile) : SourceSet where
  root := root
  grouped := files.map DefinitionFile.source
  individual := []

/-! ## What scanning finds -/

section Scanned

variable {root : Path} {files : List DefinitionFile}
  (h : ∀ file ∈ files, ∀ d ∈ file.definitions, d.WellFormed)

include h

theorem SourceSet.blocks_ofDefinitions :
    (ofDefinitions root files).blocks =
      files.flatMap fun file => file.definitions.map (·.block file.path) := by
  simp only [blocks, ofDefinitions, List.append_nil, List.flatMap_map]
  apply congrArg List.flatten
  apply List.map_congr_left
  intro file hfile
  exact Definition.ofTokens_flatMap_text (h file hfile) file.path

theorem SourceSet.declarations_ofDefinitions :
    (ofDefinitions root files).declarations =
      files.flatMap fun file => file.definitions.map (·.declaration file.path) := by
  simp only [declarations, ofDefinitions, List.flatMap_nil, List.append_nil, List.flatMap_map]
  apply congrArg List.flatten
  apply List.map_congr_left
  intro file hfile
  exact Definition.after_flatMap_text (h file hfile) file.path none

theorem Entry.ofBlocks_ofDefinitions :
    ofBlocks (SourceSet.ofDefinitions root files).blocks =
      (files.flatMap (·.definitions)).map Definition.entry := by
  rw [SourceSet.blocks_ofDefinitions h, ofBlocks, List.filterMap_flatMap, List.map_flatMap]
  apply congrArg List.flatten
  apply List.map_congr_left
  intro file hfile
  exact Definition.ofBlocks_map_block (h file hfile) file.path

theorem Entry.warnings_ofDefinitions :
    warnings (SourceSet.ofDefinitions root files).blocks = [] := by
  rw [SourceSet.blocks_ofDefinitions h, warnings, List.filterMap_eq_nil_iff]
  intro block hblock
  obtain ⟨file, hfile, hblock⟩ := List.mem_flatMap.1 hblock
  obtain ⟨d, hd, rfl⟩ := List.mem_map.1 hblock
  exact (h file hfile d hd).warning?_block file.path

/-- What some declaration satisfies, some definition satisfies, whatever file it is in. -/
theorem SourceSet.exists_mem_declarations_iff {P : Declaration → Prop} {Q : Definition → Prop}
    (hiff : ∀ d origin, P (Definition.declaration d origin) ↔ Q d) :
    (∃ declaration ∈ (ofDefinitions root files).declarations, P declaration) ↔
      ∃ d ∈ files.flatMap (·.definitions), Q d := by
  rw [declarations_ofDefinitions h]
  constructor
  · rintro ⟨declaration, hdeclaration, hP⟩
    obtain ⟨file, hfile, hdeclaration⟩ := List.mem_flatMap.1 hdeclaration
    obtain ⟨d, hd, rfl⟩ := List.mem_map.1 hdeclaration
    exact ⟨d, List.mem_flatMap.2 ⟨file, hfile, hd⟩, (hiff d file.path).1 hP⟩
  · rintro ⟨d, hd, hQ⟩
    obtain ⟨file, hfile, hd⟩ := List.mem_flatMap.1 hd
    have hdeclaration := List.mem_map_of_mem (f := fun d => Definition.declaration d file.path) hd
    exact ⟨_, List.mem_flatMap.2 ⟨file, hfile, hdeclaration⟩, (hiff d file.path).2 hQ⟩

end Scanned

/-! ## What is assembled -/

/-- Files of definitions are assembled into a row for each definition, the rows by index and
those of one index as they are written, and into sections with the symbols of the definitions.
Nothing is warned about. -/
theorem Assembly.ofSources_ofDefinitions {root : Path} {files : List DefinitionFile}
    (h : ∀ file ∈ files, ∀ d ∈ file.definitions, d.WellFormed) :
    let set := SourceSet.ofDefinitions root files
    let definitions := files.flatMap (·.definitions)
    Entry.IsOrdered (definitions.map Definition.entry) (ofSources set).entries ∧
      warnings set = [] ∧
      (∀ s, s ∈ (ofSources set).sections.native.toList ↔
        ∃ d ∈ definitions, d.IsNative ∧ d.symbol = s) ∧
      (∀ s, s ∈ (ofSources set).sections.regular.toList ↔
        (∃ d ∈ definitions, ¬ d.IsNative ∧ d.symbol = s) ∧
          ¬ ∃ d ∈ definitions, d.IsNative ∧ d.symbol = s) := by
  intro set definitions
  have hentries : Entry.ofBlocks set.blocks = definitions.map Definition.entry :=
    Entry.ofBlocks_ofDefinitions h
  have hnative (s : Text) : s ∈ (Sections.nativeSymbols set.declarations).toList ↔
      ∃ d ∈ definitions, d.IsNative ∧ d.symbol = s := by
    rw [Sections.mem_nativeSymbols]
    refine SourceSet.exists_mem_declarations_iff h fun d origin => ?_
    rw [Definition.native_declaration, Definition.symbol_declaration]
  have hregular (s : Text) : s ∈ (Sections.regularSymbols set.declarations).toList ↔
      ∃ d ∈ definitions, ¬ d.IsNative ∧ d.symbol = s := by
    rw [Sections.mem_regularSymbols]
    refine SourceSet.exists_mem_declarations_iff h fun d origin => ?_
    rw [← Bool.not_eq_true, Definition.native_declaration, Definition.symbol_declaration]
  refine ⟨?_, Entry.warnings_ofDefinitions h, hnative, fun s => ?_⟩
  · rw [← hentries]
    exact Entry.isOrdered_order _
  · rw [← hnative, ← hregular]
    exact SymbolSet.mem_diff

namespace Definition

/-- A native function. -/
def plus : Definition where
  qcode := "Q1".toList
  flags := "OK".toList
  index := 7
  name := "plus".toList
  signature := "a b -> c".toList
  description := "Adds.\n[NATIVE]".toList
  idiom := .function

/-- A macro call whose name starts with a glyph. -/
def ceil : Definition where
  qcode := "Q0".toList
  flags := "OK".toList
  index := -1
  name := "c\\0ceil".toList
  signature := "a : b".toList
  description := []
  idiom := .macroCall "UNARY".toList

theorem wellFormed_plus : plus.WellFormed := by constructor <;> decide

theorem wellFormed_ceil : ceil.WellFormed := by constructor <;> decide

theorem isNative_plus : plus.IsNative := ⟨rfl, Text.contains_iff.1 (by decide)⟩

theorem not_isNative_ceil : ¬ ceil.IsNative := fun h => absurd h.1 (by decide)

end Definition

open Definition in
theorem Assembly.ofSources_plus_ceil :
    let set := SourceSet.ofDefinitions ⟨['/']⟩ [⟨⟨"/a.c".toList⟩, [plus, ceil]⟩]
    plus.WellFormed ∧ ceil.WellFormed ∧
      Entry.IsOrdered [plus.entry, ceil.entry] (ofSources set).entries ∧ warnings set = [] ∧
      "plus_".toList ∈ (ofSources set).sections.native.toList ∧
      "ceil_".toList ∈ (ofSources set).sections.regular.toList := by
  intro set
  have hfiles : ∀ file ∈ [DefinitionFile.mk ⟨"/a.c".toList⟩ [plus, ceil]],
      ∀ d ∈ file.definitions, d.WellFormed := by
    simp [wellFormed_plus, wellFormed_ceil]
  obtain ⟨hrows, hwarnings, hnative, hregular⟩ := Assembly.ofSources_ofDefinitions hfiles
  refine ⟨wellFormed_plus, wellFormed_ceil, hrows, hwarnings, ?_, ?_⟩
  · exact (hnative _).2 ⟨plus, by simp, isNative_plus, by decide⟩
  · refine (hregular _).2 ⟨⟨ceil, by simp, not_isNative_ceil, by decide⟩, ?_⟩
    rintro ⟨d, hd, hnative, hsymbol⟩
    have hd : d = plus ∨ d = ceil := by simpa using hd
    rcases hd with rfl | rfl
    · exact absurd hsymbol (by decide)
    · exact not_isNative_ceil hnative

end Optable
