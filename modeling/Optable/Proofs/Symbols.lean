import Optable.Sections
/-!
# Members of symbol sets

What is in a set of symbols after each operation, and in the sections of a list of declarations.
A set is listed in one way only, so that its members decide what is written out.
-/

namespace Optable

/-- The list of the texts for which `P` holds: each of them once, in ascending order. -/
structure Text.IsListing (P : Text → Prop) (l : List Text) : Prop where
  ascending : l.Pairwise fun s t => Text.precedes s t
  mem_iff : ∀ s, s ∈ l ↔ P s

theorem Text.IsListing.nodup {P : Text → Prop} {l : List Text} (h : IsListing P l) : l.Nodup := by
  refine h.ascending.imp fun hst heq => ?_
  subst heq
  exact precedes_irrefl _ hst

/-- There is one listing at most. -/
theorem Text.IsListing.eq {P Q : Text → Prop} {l m : List Text} (hl : IsListing P l)
    (hm : IsListing Q m) (h : ∀ s, P s ↔ Q s) : l = m := by
  have hperm : l.Perm m := by
    refine (List.perm_ext_iff_of_nodup hl.nodup hm.nodup).2 fun s => ?_
    rw [hl.mem_iff, hm.mem_iff, h]
  refine hperm.eq_of_pairwise (fun s t _ _ hst hts => ?_) hl.ascending hm.ascending
  exact absurd (precedes_trans hst hts) (precedes_irrefl s)

namespace SymbolSet

variable {s t : Text}

theorem mem_insert {set : SymbolSet} : s ∈ (set.insert t).toList ↔ s = t ∨ s ∈ set.toList :=
  mem_insertInto

theorem mem_foldl_insert {l : List Text} {set : SymbolSet} :
    s ∈ (l.foldl insert set).toList ↔ s ∈ l ∨ s ∈ set.toList := by
  induction l generalizing set with
  | nil => simp
  | cons t l ih =>
    rw [List.foldl_cons, ih, mem_insert, List.mem_cons]
    exact or_left_comm.trans or_assoc.symm

theorem mem_ofList {l : List Text} : s ∈ (ofList l).toList ↔ s ∈ l := by
  rw [ofList, mem_foldl_insert]
  simp [empty]

theorem mem_diff {a b : SymbolSet} : s ∈ (a.diff b).toList ↔ s ∈ a.toList ∧ s ∉ b.toList := by
  simp [diff, filter, contains]

theorem mem_inter {a b : SymbolSet} : s ∈ (a.inter b).toList ↔ s ∈ a.toList ∧ s ∈ b.toList := by
  simp [inter, filter, contains]

theorem eq_of_toList_eq {a b : SymbolSet} (h : a.toList = b.toList) : a = b := by
  cases a
  cases b
  cases h
  rfl

end SymbolSet

namespace Sections

variable {declarations : List Declaration} {s : Text}

theorem mem_nativeSymbols :
    s ∈ (nativeSymbols declarations).toList ↔
      ∃ d ∈ declarations, d.native ∧ d.symbol = s := by
  rw [nativeSymbols, SymbolSet.mem_ofList]
  simp [and_assoc]

theorem mem_regularSymbols :
    s ∈ (regularSymbols declarations).toList ↔
      ∃ d ∈ declarations, d.native = false ∧ d.symbol = s := by
  rw [regularSymbols, SymbolSet.mem_ofList]
  simp [and_assoc]

/-- Some declaration makes a symbol native, or declares it unconditionally. -/
def Declares (declarations : List Declaration) (native : Bool) (s : Text) : Prop :=
  ∃ d ∈ declarations, d.native = native ∧ d.symbol = s

variable (declarations)

theorem isListing_native :
    Text.IsListing (Declares declarations true) (ofDeclarations declarations).native.toList where
  ascending := (ofDeclarations declarations).native.ascending
  mem_iff _ := mem_nativeSymbols

theorem isListing_regular :
    Text.IsListing (fun s => Declares declarations false s ∧ ¬ Declares declarations true s)
      (ofDeclarations declarations).regular.toList where
  ascending := (ofDeclarations declarations).regular.ascending
  mem_iff s := by
    refine SymbolSet.mem_diff.trans ?_
    rw [mem_regularSymbols, mem_nativeSymbols]
    rfl

/-- The symbols that are declared both ways. -/
def conflicting : SymbolSet := (regularSymbols declarations).inter (nativeSymbols declarations)

theorem isListing_conflicting :
    Text.IsListing (fun s => Declares declarations false s ∧ Declares declarations true s)
      (conflicting declarations).toList where
  ascending := (conflicting declarations).ascending
  mem_iff s := by
    refine SymbolSet.mem_inter.trans ?_
    rw [mem_regularSymbols, mem_nativeSymbols]
    rfl

/-! ## Declarations in another order -/

section Perm

variable {declarations} {others : List Declaration} {native : Bool}

theorem declares_iff_of_perm (h : declarations.Perm others) :
    Declares declarations native s ↔ Declares others native s := by
  simp only [Declares, h.mem_iff]

theorem ofDeclarations_eq_of_perm (h : declarations.Perm others) :
    ofDeclarations declarations = ofDeclarations others := by
  have hregular : (ofDeclarations declarations).regular = (ofDeclarations others).regular := by
    refine SymbolSet.eq_of_toList_eq ?_
    refine (isListing_regular declarations).eq (isListing_regular others) fun s => ?_
    rw [declares_iff_of_perm h, declares_iff_of_perm h]
  have hnative : (ofDeclarations declarations).native = (ofDeclarations others).native := by
    refine SymbolSet.eq_of_toList_eq ?_
    exact (isListing_native declarations).eq (isListing_native others) fun s =>
      declares_iff_of_perm h
  exact (Sections.mk.injEq ..).mpr ⟨hregular, hnative⟩

theorem conflicting_eq_of_perm (h : declarations.Perm others) :
    conflicting declarations = conflicting others := by
  refine SymbolSet.eq_of_toList_eq ?_
  refine (isListing_conflicting declarations).eq (isListing_conflicting others) fun s => ?_
  rw [declares_iff_of_perm h, declares_iff_of_perm h]

end Perm

end Sections
end Optable
