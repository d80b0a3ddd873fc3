import Optable.Entry
/-!
# The order of rows

Ordering the rows keeps every row, puts them by ascending index, and leaves the rows of one index
in the order in which they were found.
-/

namespace Optable.Entry

/-- The rows by ascending index, those of one index in their old order. -/
structure IsOrdered (entries ordered : List Entry) : Prop where
  perm : ordered.Perm entries
  ascending : ordered.Pairwise fun a b => a.index ≤ b.index
  stable : ∀ i : Int, ordered.filter (·.index = i) = entries.filter (·.index = i)

variable (entries : List Entry)

theorem pairwise_filter_index (i : Int) :
    (entries.filter (·.index = i)).Pairwise fun a b => decide (a.index ≤ b.index) := by
  rw [List.pairwise_iff_forall_sublist]
  intro a b hab
  have ha : a ∈ entries.filter (·.index = i) := hab.subset (by simp)
  have hb : b ∈ entries.filter (·.index = i) := hab.subset (by simp)
  simp only [List.mem_filter, decide_eq_true_eq] at ha hb ⊢
  omega

theorem index_le_trans (a b c : Entry) (hab : decide (a.index ≤ b.index) = true)
    (hbc : decide (b.index ≤ c.index) = true) : decide (a.index ≤ c.index) = true := by
  simp only [decide_eq_true_eq] at *
  omega

theorem index_le_total (a b : Entry) :
    (decide (a.index ≤ b.index) || decide (b.index ≤ a.index)) = true := by
  simp only [Bool.or_eq_true, decide_eq_true_eq]
  omega

theorem filter_index_order (i : Int) :
    (order entries).filter (·.index = i) = entries.filter (·.index = i) := by
  have hsub : (entries.filter (·.index = i)).Sublist (order entries) :=
    List.sublist_mergeSort index_le_trans index_le_total (pairwise_filter_index entries i)
      List.filter_sublist
  have hfilter := hsub.filter (·.index = i)
  rw [List.filter_filter] at hfilter
  simp only [Bool.and_self] at hfilter
  have hperm : (order entries).Perm entries := List.mergeSort_perm entries _
  have hlength := (hperm.filter fun entry => decide (entry.index = i)).length_eq
  exact (hfilter.eq_of_length hlength.symm).symm

theorem isOrdered_order : IsOrdered entries (order entries) := by
  refine ⟨List.mergeSort_perm _ _, ?_, filter_index_order entries⟩
  have h : (order entries).Pairwise fun a b => decide (a.index ≤ b.index) :=
    List.pairwise_mergeSort index_le_trans index_le_total entries
  simpa only [decide_eq_true_eq] using h

variable {entries}

/-- Rows that are in order stay as they are. -/
theorem order_of_pairwise (h : entries.Pairwise fun a b => a.index ≤ b.index) :
    order entries = entries :=
  List.mergeSort_of_pairwise (by simpa only [decide_eq_true_eq] using h)

end Optable.Entry
