import Mathlib.Data.List.Dedup
import Mathlib.Data.List.SplitBy
import Optable.Proofs.Index
import Optable.Proofs.Rows
/-!
# Indices that rows share

Among rows by ascending index the rows of one index stand together, so that cutting the rows where
the index changes finds every index that several rows have.  The report names each of these indices
once, by ascending index, with the names of all its rows.
-/

namespace Optable.Entry

/-- The rows of one index, in their order. -/
def withIndex (i : Int) (entries : List Entry) : List Entry := entries.filter (·.index = i)

/-- The collision of the rows of one index. -/
def sharing (entries : List Entry) (i : Int) : Collision :=
  .sharedIndex i ((withIndex i entries).map (·.name))

/-- A report on rows: a collision for each index that at least two of the rows have, and no other,
by ascending index. -/
structure IsReport (entries : List Entry) (shared : List Int) (collisions : List Collision) :
    Prop where
  ascending : shared.Pairwise (· < ·)
  mem_iff : ∀ i, i ∈ shared ↔ 2 ≤ (entries.map (·.index)).count i
  collisions_eq : collisions = shared.map (sharing entries)

variable {entries ordered : List Entry} {indices : List Int} {i j : Int}

theorem mem_withIndex {e : Entry} : e ∈ withIndex i entries ↔ e ∈ entries ∧ e.index = i := by
  simp [withIndex]

theorem length_withIndex (i : Int) (entries : List Entry) :
    (withIndex i entries).length = (entries.map (·.index)).count i := by
  rw [withIndex, List.count_eq_countP, List.countP_map, List.countP_eq_length_filter]
  rfl

/-! ## Groups of one index -/

/-- Rows by ascending index start with those of the least index. -/
theorem eq_withIndex_append (h : ordered.Pairwise fun a b => a.index ≤ b.index)
    (hi : ∀ e ∈ ordered, i ≤ e.index) :
    ordered = withIndex i ordered ++ ordered.filter (i < ·.index) := by
  induction ordered with
  | nil => rfl
  | cons e ordered ih =>
    obtain ⟨hle, hordered⟩ := List.pairwise_cons.1 h
    obtain ⟨hie, hrest⟩ := List.forall_mem_cons.1 hi
    by_cases he : e.index = i
    · have habove : ¬ i < e.index := by omega
      rw [withIndex, List.filter_cons_of_pos (by simpa using he),
        List.filter_cons_of_neg (by simpa using habove), List.cons_append]
      exact congrArg _ (ih hordered hrest)
    · have habove : ∀ b ∈ e :: ordered, i < b.index := by
        refine List.forall_mem_cons.2 ⟨by omega, fun b hb => ?_⟩
        have := hle b hb
        omega
      have hnone : withIndex i (e :: ordered) = [] := by
        refine List.filter_eq_nil_iff.2 fun b hb => ?_
        have := habove b hb
        simp only [decide_eq_true_eq]
        omega
      rw [hnone, List.nil_append, List.filter_eq_self.2 (by simpa using habove)]

theorem withIndex_filter_of_lt (h : i < j) :
    withIndex j (ordered.filter (i < ·.index)) = withIndex j ordered := by
  rw [withIndex, List.filter_filter, withIndex]
  refine List.filter_congr fun e _ => ?_
  grind

theorem splitBy_withIndex (i : Int) (entries : List Entry) :
    (withIndex i entries).splitBy (fun a b => a.index = b.index) =
      [withIndex i entries].filter (!·.isEmpty) := by
  by_cases h : withIndex i entries = []
  · simp [h]
  · rw [List.splitBy_of_isChain h, List.filter_cons_of_pos (by simpa using h), List.filter_nil]
    refine (List.pairwise_of_forall_mem_list fun a ha b hb => ?_).isChain
    rw [mem_withIndex] at ha hb
    simp [ha.2, hb.2]

/-- Rows by ascending index are cut into the groups of the indices that they have. -/
theorem splitBy_eq (hindices : indices.Pairwise (· < ·))
    (h : ordered.Pairwise fun a b => a.index ≤ b.index)
    (hmem : ∀ e ∈ ordered, e.index ∈ indices) :
    ordered.splitBy (fun a b => a.index = b.index) =
      (indices.map (withIndex · ordered)).filter (!·.isEmpty) := by
  induction indices generalizing ordered with
  | nil =>
    rw [List.eq_nil_iff_forall_not_mem.2 fun e he => List.not_mem_nil (hmem e he)]
    rfl
  | cons i indices ih =>
    obtain ⟨hlt, hindices⟩ := List.pairwise_cons.1 hindices
    have hleast : ∀ e ∈ ordered, i ≤ e.index := by
      intro e he
      rcases List.mem_cons.1 (hmem e he) with hi | hi
      · exact Int.le_of_eq hi.symm
      · exact Int.le_of_lt (hlt _ hi)
    -- The rows of the least index come first, and the index changes where they end.
    have hgroup := eq_withIndex_append h hleast
    have hcut : (withIndex i ordered ++ ordered.filter (i < ·.index)).splitBy
        (fun a b => a.index = b.index) =
        (withIndex i ordered).splitBy (fun a b => a.index = b.index) ++
          (ordered.filter (i < ·.index)).splitBy (fun a b => a.index = b.index) := by
      refine List.splitBy_append fun a ha b hb => ?_
      have ha := (mem_withIndex.1 (List.mem_of_getLast? ha)).2
      have hb := (List.mem_filter.1 (List.mem_of_head? hb)).2
      simp only [decide_eq_true_eq, decide_eq_false_iff_not] at hb ⊢
      omega
    have hrest : ∀ e ∈ ordered.filter (i < ·.index), e.index ∈ indices := by
      intro e he
      obtain ⟨he, hie⟩ := List.mem_filter.1 he
      rcases List.mem_cons.1 (hmem e he) with hi | hi
      · simp [hi] at hie
      · exact hi
    have hmap : indices.map (withIndex · (ordered.filter (i < ·.index))) =
        indices.map (withIndex · ordered) :=
      List.map_congr_left fun j hj => withIndex_filter_of_lt (hlt j hj)
    conv => lhs; rw [hgroup]
    rw [hcut, splitBy_withIndex, ih hindices (h.filter _) hrest, hmap, ← List.filter_append]
    rfl

theorem collision?_withIndex (i : Int) (entries : List Entry) :
    collision? (withIndex i entries) =
      if 2 ≤ (withIndex i entries).length then some (sharing entries i) else none := by
  unfold sharing
  have hindex : ∀ e ∈ withIndex i entries, e.index = i := fun e he => (mem_withIndex.1 he).2
  generalize withIndex i entries = group at hindex ⊢
  rcases group with _ | ⟨a, _ | ⟨b, rest⟩⟩
  · rfl
  · rfl
  · have htwo : 2 ≤ (a :: b :: rest).length := by simp
    rw [collision?, hindex a List.mem_cons_self, if_pos htwo]

/-- The collisions of rows by ascending index, over any ascending list of indices that covers the
rows. -/
theorem collisions_eq_map (hindices : indices.Pairwise (· < ·))
    (h : ordered.Pairwise fun a b => a.index ≤ b.index)
    (hmem : ∀ e ∈ ordered, e.index ∈ indices) :
    collisions ordered =
      (indices.filter fun i => 2 ≤ (withIndex i ordered).length).map (sharing ordered) := by
  rw [collisions, splitBy_eq hindices h hmem, List.filterMap_filter, List.filterMap_map,
    ← List.filterMap_eq_map, List.filterMap_filter]
  refine List.filterMap_congr fun i _ => ?_
  rw [Function.comp_apply, collision?_withIndex]
  rcases withIndex i ordered with _ | ⟨a, rest⟩
  · rfl
  · simp

/-- The collisions of ordered rows report on the rows that were ordered. -/
theorem exists_isReport_collisions (h : IsOrdered entries ordered) :
    ∃ shared, IsReport entries shared (collisions ordered) := by
  have hnames : sharing ordered = sharing entries := by
    funext i
    exact congrArg (fun group : List Entry => Collision.sharedIndex i (group.map (·.name)))
      (h.stable i)
  have hcount (i : Int) : (withIndex i ordered).length = (entries.map (·.index)).count i := by
    rw [length_withIndex]
    exact (h.perm.map _).count_eq i
  let indices := (ordered.map (·.index)).dedup
  have hindices : indices.Pairwise (· < ·) := by
    have hle : indices.Pairwise (· ≤ ·) :=
      (List.pairwise_map.2 h.ascending).sublist (List.dedup_sublist _)
    refine hle.imp₂ (fun i j hij hne => ?_) (List.nodup_dedup _)
    omega
  have hmem : ∀ e ∈ ordered, e.index ∈ indices :=
    fun e he => List.mem_dedup.2 (List.mem_map_of_mem he)
  refine ⟨_, hindices.filter _, fun i => ?_, hnames ▸ collisions_eq_map hindices h.ascending hmem⟩
  rw [List.mem_filter, decide_eq_true_eq, hcount, and_iff_right_iff_imp]
  intro htwo
  have hpos : 0 < (entries.map (·.index)).count i := by omega
  exact List.mem_dedup.2 ((h.perm.map _).mem_iff.2 (List.count_pos_iff.1 hpos))

/-! ## Reports -/

namespace IsReport

variable {shared : List Int} {reported : List Collision}

theorem eq_nil_iff (h : IsReport entries shared reported) :
    reported = [] ↔ (entries.map (·.index)).Nodup := by
  rw [h.collisions_eq, List.map_eq_nil_iff, List.nodup_iff_count, List.eq_nil_iff_forall_not_mem]
  refine forall_congr' fun i => ?_
  rw [h.mem_iff]
  omega

end IsReport

/-! ## Rows of doc blocks -/

variable {blocks : List DocBlock}

theorem inRange_of_mem_ofBlocks {e : Entry} (h : e ∈ ofBlocks blocks) : Index.InRange e.index := by
  obtain ⟨block, -, hrow⟩ := List.mem_filterMap.1 h
  unfold ofBlock? at hrow
  split at hrow
  · next hread =>
    obtain rfl := Option.some.inj hrow
    exact Index.inRange_of_read hread
  · simp at hrow

/-- Doc blocks whose index texts spell one number, however each of them spells it, become rows of
one index. -/
theorem sublist_withIndex_ofBlocks {a b : DocBlock} (h : [a, b].Sublist blocks)
    (hi : Index.InRange i) (ha : Index.Spells a.header.index i)
    (hb : Index.Spells b.header.index i) :
    [make i a, make i b].Sublist (withIndex i (ofBlocks blocks)) := by
  have hrow {block : DocBlock} (hspells : Index.Spells block.header.index i) :
      ofBlock? block = some (make i block) := by
    simp only [ofBlock?, Index.read_eq_number_iff.2 ⟨hspells, hi⟩]
  have hrows : ofBlocks [a, b] = [make i a, make i b] := by
    rw [ofBlocks, List.filterMap_cons_some (hrow ha), List.filterMap_cons_some (hrow hb),
      List.filterMap_nil]
  have hsub := (h.filterMap ofBlock?).filter fun e => decide (e.index = i)
  change (withIndex i (ofBlocks [a, b])).Sublist (withIndex i (ofBlocks blocks)) at hsub
  rwa [hrows, withIndex, List.filter_eq_self.2 (by simp [make])] at hsub

/-- The table of a list of doc blocks holds their rows, each once, by ascending index and those of
one index as they were found.  Its collisions report on the rows, so that there is none where the
indices differ, and doc blocks whose index texts spell one number are reported together. -/
theorem isOrdered_and_isReport_ofBlocks (blocks : List DocBlock) :
    let entries := ofBlocks blocks
    let table := order entries
    IsOrdered entries table ∧ (∀ e ∈ table, Index.InRange e.index) ∧
      (∃ shared, IsReport entries shared (collisions table)) ∧
      (collisions table = [] ↔ (entries.map (·.index)).Nodup) ∧
      ∀ (a b : DocBlock) (i : Int), [a, b].Sublist blocks → Index.InRange i →
        Index.Spells a.header.index i → Index.Spells b.header.index i →
        ∃ names, .sharedIndex i names ∈ collisions table ∧
          [Literal.escape a.header.name, Literal.escape b.header.name].Sublist names := by
  intro entries table
  have htable : IsOrdered entries table := isOrdered_order entries
  obtain ⟨shared, hreport⟩ := exists_isReport_collisions htable
  refine ⟨htable, fun e he => ?_, ⟨shared, hreport⟩, hreport.eq_nil_iff, ?_⟩
  · exact inRange_of_mem_ofBlocks (htable.perm.mem_iff.1 he)
  · intro a b i hab hi ha hb
    have hrows := sublist_withIndex_ofBlocks hab hi ha hb
    have htwo : 2 ≤ (entries.map (·.index)).count i := by
      rw [← length_withIndex]
      exact hrows.length_le
    refine ⟨(withIndex i entries).map Entry.name, ?_, hrows.map Entry.name⟩
    rw [hreport.collisions_eq]
    exact List.mem_map_of_mem ((hreport.mem_iff i).2 htwo)

/-- A doc block with the given index text and name. -/
def plainBlock (index name : Text) : DocBlock where
  header := ⟨"Q0".toList, "OK".toList, index, name, []⟩
  description := []
  origin := ⟨"a.c".toList⟩

theorem sharedIndex_seven :
    let a := plainBlock "7".toList "a".toList
    let b := plainBlock "-1".toList "b".toList
    let c := plainBlock "+007".toList "c".toList
    [a, c].Sublist [a, b, c] ∧ Index.InRange 7 ∧ Index.Spells a.header.index 7 ∧
      Index.Spells c.header.index 7 ∧
      ∃ names, .sharedIndex 7 names ∈ collisions (order (ofBlocks [a, b, c])) ∧
        [Literal.escape "a".toList, Literal.escape "c".toList].Sublist names := by
  intro a b c
  have hsub : [a, c].Sublist [a, b, c] := by decide
  have hi : Index.InRange 7 := by decide
  have ha : Index.Spells a.header.index 7 := Index.spells_of_read_eq_number (by decide)
  have hc : Index.Spells c.header.index 7 := Index.spells_of_read_eq_number (by decide)
  obtain ⟨-, -, -, -, hreport⟩ := isOrdered_and_isReport_ofBlocks [a, b, c]
  exact ⟨hsub, hi, ha, hc, hreport a c 7 hsub hi ha hc⟩

end Optable.Entry
