import Mathlib.Data.List.Forall2
import Mathlib.Data.List.Sort
import Optable.Artifact
import Optable.Proofs.Collisions
/-!
# Sources in another order

The order in which the files are found decides about nothing but the rows that share an index, which
stand in that order.  The header, the verdict of every policy, and what is reported stay the same,
apart from the order of the names in a report on such rows.
-/

namespace Optable

/-- The same sources, with the files of each kind in another order. -/
structure SourceSet.IsReordering (set other : SourceSet) : Prop where
  root_eq : set.root = other.root
  grouped : set.grouped.Perm other.grouped
  individual : set.individual.Perm other.individual

namespace SourceSet.IsReordering

variable {set other : SourceSet}

theorem declarations (h : set.IsReordering other) : set.declarations.Perm other.declarations :=
  (h.grouped.flatMap_right _).append (h.individual.flatMap_right _)

theorem entries (h : set.IsReordering other) :
    (Entry.ofBlocks set.blocks).Perm (Entry.ofBlocks other.blocks) :=
  ((h.grouped.append h.individual).flatMap_right _).filterMap _

end SourceSet.IsReordering

/-! ## Rows in another order -/

namespace Entry

variable {entries others rows otherRows : List Entry}

/-- The same rows, of which only those of one index stand in another order. -/
structure SameUpToTies (rows others : List Entry) : Prop where
  perm : rows.Perm others
  indices_eq : rows.map (·.index) = others.map (·.index)

theorem IsOrdered.sameUpToTies (h : IsOrdered entries rows) (hothers : IsOrdered others otherRows)
    (hperm : entries.Perm others) : SameUpToTies rows otherRows := by
  have hrows : rows.Perm otherRows := (h.perm.trans hperm).trans hothers.perm.symm
  have hascending : (rows.map (·.index)).Pairwise (· ≤ ·) := List.pairwise_map.2 h.ascending
  have hotherAscending : (otherRows.map (·.index)).Pairwise (· ≤ ·) :=
    List.pairwise_map.2 hothers.ascending
  exact ⟨hrows, (hrows.map _).eq_of_pairwise' hascending hotherAscending⟩

/-- Rows of different indices have one order only. -/
theorem SameUpToTies.eq_of_nodup (h : SameUpToTies rows others)
    (hnodup : (rows.map (·.index)).Nodup) : rows = others := by
  -- At each place the two rows have one index, and only one row has it.
  refine List.ext_getElem h.perm.length_eq fun k hk hk' => ?_
  have hindex : (rows[k]).index = (others[k]).index := by
    simpa [hk, hk'] using congrArg (·[k]?) h.indices_eq
  have hmem : others[k] ∈ rows := h.perm.mem_iff.2 (List.getElem_mem hk')
  exact List.inj_on_of_nodup_map hnodup (List.getElem_mem hk) hmem hindex

namespace IsReport

variable {shared otherShared : List Int} {reported otherReported : List Collision}

theorem shared_eq_of_perm (h : IsReport entries shared reported)
    (hothers : IsReport others otherShared otherReported) (hperm : entries.Perm others) :
    shared = otherShared := by
  refine h.ascending.eq_of_mem_iff hothers.ascending fun i => ?_
  rw [h.mem_iff, hothers.mem_iff, (hperm.map _).count_eq]

theorem forall₂_shared?_of_perm (h : IsReport entries shared reported)
    (hothers : IsReport others otherShared otherReported) (hperm : entries.Perm others) :
    List.Forall₂ (fun a b => a.1 = b.1 ∧ a.2.Perm b.2) (reported.filterMap Collision.shared?)
      (otherReported.filterMap Collision.shared?) := by
  rw [h.filterMap_shared?, hothers.filterMap_shared?, ← h.shared_eq_of_perm hothers hperm,
    List.forall₂_map_left_iff, List.forall₂_map_right_iff, List.forall₂_same]
  exact fun i _ => ⟨rfl, (hperm.filter _).map _⟩

end IsReport
end Entry

/-! ## Assemblies -/

namespace Assembly

/-- What two assemblies agree on where the order of their rows may differ only among rows that
share an index. -/
structure Agrees (a b : Assembly) : Prop where
  header_eq : Artifact.render a .header = Artifact.render b .header
  conflicts_eq : a.collisions.filterMap Collision.symbol? = b.collisions.filterMap Collision.symbol?
  /-- The same indices are reported, in the same order, each with the same names. -/
  shared : List.Forall₂ (fun s t => s.1 = t.1 ∧ s.2.Perm t.2)
    (a.collisions.filterMap Collision.shared?) (b.collisions.filterMap Collision.shared?)
  verdict_eq : ∀ (policy : Policy) (kind : ArtifactKind),
    (policy.judge kind a.collisions).isOk = (policy.judge kind b.collisions).isOk
  rows : Entry.SameUpToTies a.entries b.entries
  table_eq : (a.entries.map (·.index)).Nodup → Artifact.render a .table = Artifact.render b .table

variable {set other : SourceSet}

/-- The order of the files does not matter, except for the order of rows that share an index. -/
theorem agrees_of_isReordering (h : set.IsReordering other) :
    (ofSources set).Agrees (ofSources other) := by
  obtain ⟨shared, reported, hreport, hcollisions⟩ := exists_collisions_eq set
  obtain ⟨otherShared, otherReported, hothers, hotherCollisions⟩ := exists_collisions_eq other
  have hsections : (ofSources set).sections = (ofSources other).sections :=
    Sections.ofDeclarations_eq_of_perm h.declarations
  have hconflicting := Sections.conflicting_eq_of_perm h.declarations
  have hrows : Entry.SameUpToTies (ofSources set).entries (ofSources other).entries :=
    (Entry.isOrdered_order _).sameUpToTies (Entry.isOrdered_order _) h.entries
  constructor
  · simp only [Artifact.render, hsections]
  · rw [filterMap_symbol?_collisions, filterMap_symbol?_collisions, hconflicting]
  · rw [hcollisions, hotherCollisions, List.filterMap_append, List.filterMap_append,
      Collision.filterMap_shared?_nativeConflict, Collision.filterMap_shared?_nativeConflict]
    exact hreport.forall₂_shared?_of_perm hothers h.entries
  · intro policy kind
    have haffects : (ofSources set).collisions.map Collision.affects =
        (ofSources other).collisions.map Collision.affects := by
      rw [hcollisions, hotherCollisions, List.map_append, List.map_append, hreport.map_affects,
        hothers.map_affects, hreport.shared_eq_of_perm hothers h.entries, hconflicting]
    rw [Bool.eq_iff_iff, Policy.isOk_judge, Policy.isOk_judge, haffects]
  · exact hrows
  · intro hnodup
    simp only [Artifact.render, hrows.eq_of_nodup hnodup]

/-- A file with a doc block of index 1. -/
def fileOfBlock (name : Char) : SourceFile where
  path := ⟨['/', name]⟩
  text := "/** Q0 OK 1 ".toList ++ name :: " : */".toList

theorem agrees_swapped :
    let set : SourceSet := ⟨⟨['/']⟩, [fileOfBlock 'a', fileOfBlock 'b'], []⟩
    let other : SourceSet := ⟨⟨['/']⟩, [fileOfBlock 'b', fileOfBlock 'a'], []⟩
    set.IsReordering other ∧
      (ofSources set).entries.map (·.name) = [['a'], ['b']] ∧
      (ofSources other).entries.map (·.name) = [['b'], ['a']] ∧
      (ofSources set).Agrees (ofSources other) := by
  intro set other
  have h : set.IsReordering other := ⟨rfl, .swap _ _ _, .refl _⟩
  have hset : (ofSources set).entries = Entry.ofBlocks set.blocks :=
    Entry.order_of_pairwise (by decide +kernel)
  have hother : (ofSources other).entries = Entry.ofBlocks other.blocks :=
    Entry.order_of_pairwise (by decide +kernel)
  rw [hset, hother]
  exact ⟨h, by decide +kernel, by decide +kernel, agrees_of_isReordering h⟩

end Assembly
end Optable
