import Optable.Assembly
import Optable.Proofs.SharedIndex
import Optable.Proofs.Symbols
/-!
# The collisions of an assembly

An assembly reports first the symbols that are declared both ways and then the indices that several
rows have.  Each kind of collision can be read off the report by itself.
-/

namespace Optable

namespace Collision

/-- The symbol of a conflict between the sections. -/
def symbol? : Collision → Option Text
  | .nativeConflict symbol => some symbol
  | .sharedIndex .. => none

/-- The index that several rows have, and the names of these rows. -/
def shared? : Collision → Option (Int × List Text)
  | .nativeConflict _ => none
  | .sharedIndex index names => some (index, names)

theorem filterMap_shared?_nativeConflict (symbols : List Text) :
    (symbols.map nativeConflict).filterMap shared? = [] := by
  rw [List.filterMap_map]
  exact List.filterMap_eq_nil_iff.2 fun _ _ => rfl

end Collision

/-- A policy refuses collisions only if it denies and one of them concerns the file. -/
theorem Policy.isOk_judge (policy : Policy) (kind : ArtifactKind) (collisions : List Collision) :
    (policy.judge kind collisions).isOk ↔
      policy = .warn ∨ kind ∉ collisions.map Collision.affects := by
  cases policy with
  | warn => simp [judge, Except.isOk, Except.toBool]
  | deny =>
    have hnone : collisions.filter (·.affects = kind) = [] ↔
        kind ∉ collisions.map Collision.affects := by
      simp [List.filter_eq_nil_iff]
    rw [← hnone]
    by_cases h : collisions.filter (·.affects = kind) = [] <;>
      simp [judge, h, Except.isOk, Except.toBool]

namespace Entry.IsReport

variable {entries : List Entry} {shared : List Int} {reported : List Collision}

theorem filterMap_symbol? (h : IsReport entries shared reported) :
    reported.filterMap Collision.symbol? = [] := by
  rw [h.collisions_eq, List.filterMap_map]
  exact List.filterMap_eq_nil_iff.2 fun _ _ => rfl

theorem filterMap_shared? (h : IsReport entries shared reported) :
    reported.filterMap Collision.shared? =
      shared.map fun i => (i, (withIndex i entries).map (·.name)) := by
  rw [h.collisions_eq, List.filterMap_map, ← List.filterMap_eq_map]
  rfl

theorem map_affects (h : IsReport entries shared reported) :
    reported.map Collision.affects = shared.map fun _ => .table := by
  rw [h.collisions_eq, List.map_map]
  rfl

end Entry.IsReport

namespace Assembly

variable (set : SourceSet)

/-- The conflicts between the sections come first, by symbol, then the shared indices. -/
theorem exists_collisions_eq : ∃ shared reported,
    Entry.IsReport (Entry.ofBlocks set.blocks) shared reported ∧
      (ofSources set).collisions =
        (Sections.conflicting set.declarations).toList.map .nativeConflict ++ reported := by
  obtain ⟨shared, hreport⟩ :=
    Entry.exists_isReport_collisions (Entry.isOrdered_order (Entry.ofBlocks set.blocks))
  exact ⟨shared, _, hreport, rfl⟩

theorem filterMap_symbol?_collisions :
    (ofSources set).collisions.filterMap Collision.symbol? =
      (Sections.conflicting set.declarations).toList := by
  obtain ⟨shared, reported, hreport, hcollisions⟩ := exists_collisions_eq set
  rw [hcollisions, List.filterMap_append, hreport.filterMap_symbol?, List.append_nil,
    List.filterMap_map]
  exact List.filterMap_some

end Assembly
end Optable
