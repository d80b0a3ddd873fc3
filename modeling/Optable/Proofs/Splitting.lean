import Optable.Proofs.Canonical
/-!
# Ways cut in two

A way along segments can be cut in two between any of them, and its second part can be exchanged for
another one.  It goes from the directory that the first part leads to, which is the same for any
number of links that is enough, and has the links that the first part did not take.
-/

namespace Optable.FileTree

variable {root node : Node} {aim : Aim} {links links' left : Nat}
  {place mid names front rest rest' segments : List Text} {name segment : Text}
  {result result' : Place}

theorem Way.of_le (h : Way root aim left place segments result) (hle : left ≤ links) :
    Way root aim links place segments result := by
  have hwalk := walk_of_way h
  rcases walk_of_le root aim place segments hle with heq | hmany
  · exact way_of_walk (heq ▸ hwalk)
  · rw [hmany] at hwalk
    cases hwalk

/-- A way is the same with any number of links that is enough. -/
theorem Way.eq_of_ways (h : Way root aim links place segments result)
    (h' : Way root aim links' place segments result') : result = result' := by
  have hwalk := walk_of_way (h.of_le (Nat.le_max_left links links'))
  have hwalk' := walk_of_way (h'.of_le (Nat.le_max_right links links'))
  exact Except.ok.inj (hwalk.symm.trans hwalk')

theorem Way.behind (h : Way root .target links place front (.found mid node))
    (hall : Way root .target links place (front ++ rest) result) :
    ∃ left ≤ links, Way root .target left mid rest result := by
  obtain ⟨left, hle, hwalk⟩ := exists_walk_append h rest
  exact ⟨left, hle, way_of_walk (hwalk ▸ walk_of_way hall)⟩

theorem needsDirectory_cons_iff :
    needsDirectory (segment :: rest) ↔
      if segment = [] ∨ segment = ['.'] then rest = [] ∨ needsDirectory rest
      else segment = ['.', '.'] := by
  conv_lhs => unfold needsDirectory
  split <;> simp_all

theorem needsDirectory_append (hname : IsName name)
    (h : needsDirectory (front ++ name :: rest')) (rest : List Text) :
    needsDirectory (front ++ rest) := by
  induction front with
  | nil =>
    rw [List.nil_append, needsDirectory_cons hname] at h
    cases h
  | cons segment front ih =>
    rw [List.cons_append, needsDirectory_cons_iff] at h ⊢
    split at h
    · next hstay =>
      rw [if_pos hstay]
      exact .inr (ih (h.resolve_left (by simp)))
    · next hstay => rwa [if_neg hstay]

/-- A name with segments behind it is no end of a path, so that a step to it is one whatever these
are. -/
theorem IsStep.append_cons (h : IsStep aim place segment (front ++ rest)) (hname : IsName name)
    (rest' : List Text) : IsStep aim place segment (front ++ name :: rest') :=
  ⟨h.name, by simp [isEndSlash, hname.ne_nil], h.short, h.spelled⟩

theorem IsStep.target (h : IsStep aim place segment rest) (rest' : List Text) :
    IsStep .target place segment rest' :=
  ⟨h.name, by simp, h.short, by simp⟩

/-- How a way goes on behind its first segments: from the directory that they lead to, with no more
links, and any way from there that starts with a name can be taken instead. -/
def Splits (root : Node) (aim : Aim) (links : Nat) (place front rest : List Text)
    (result : Place) : Prop :=
  ∃ left ≤ links, ∃ mid entries, Way root .target links place front (.found mid (.dir entries)) ∧
    Way root aim left mid rest result ∧
    ∀ name rest' result', IsName name → Way root aim left mid (name :: rest') result' →
      Way root aim links place (front ++ name :: rest') result'

theorem splits_nil (h : Way root aim links place (segment :: rest) result) :
    Splits root aim links place [] (segment :: rest) result := by
  obtain ⟨entries, hentries⟩ := any_isDir_iff.1 h.any_isDir
  exact ⟨links, Nat.le_refl _, place, entries, .here hentries, h, fun _ _ _ _ h => h⟩

/-- A way can be cut in two wherever it goes on. -/
theorem Way.splits (h : Way root aim links place (front ++ rest) (.found names node))
    (hrest : rest ≠ []) : Splits root aim links place front rest (.found names node) := by
  generalize hsegments : front ++ rest = segments at h
  generalize hresult : Place.found names node = result at h
  -- Along the way that is taken; a link's target becomes a part of the first segments.
  induction h generalizing front with
  | here => exact absurd (List.append_eq_nil_iff.1 hsegments).2 hrest
  | stay hdir hsegment hway ih =>
    cases front with
    | nil =>
      obtain rfl : rest = _ := hsegments
      exact splits_nil (.stay hdir hsegment hway)
    | cons _ front =>
      obtain ⟨rfl, hbehind⟩ := List.cons.inj hsegments
      obtain ⟨left, hle, mid, entries, hmid, hon, hback⟩ := ih hbehind hresult
      exact ⟨left, hle, mid, entries, .stay hdir hsegment hmid, hon,
        fun name rest' result hname h => .stay hdir hsegment (hback name rest' result hname h)⟩
  | up hdir hsegment hway ih =>
    cases front with
    | nil =>
      obtain rfl : rest = _ := hsegments
      exact splits_nil (.up hdir hsegment hway)
    | cons _ front =>
      obtain ⟨rfl, hbehind⟩ := List.cons.inj hsegments
      obtain ⟨left, hle, mid, entries, hmid, hon, hback⟩ := ih hbehind hresult
      exact ⟨left, hle, mid, entries, .up hdir hsegment hmid, hon,
        fun name rest' result hname h => .up hdir hsegment (hback name rest' result hname h)⟩
  | free => cases hresult
  | link hdir hstep hnode haim =>
    cases front with
    | nil =>
      obtain rfl : rest = _ := hsegments
      exact splits_nil (.link hdir hstep hnode haim)
    | cons _ front =>
      obtain ⟨-, hbehind⟩ := List.cons.inj hsegments
      exact absurd (List.append_eq_nil_iff.1 hbehind).2 hrest
  | follow hdir hstep hnode hend hway ih =>
    cases front with
    | nil =>
      obtain rfl : rest = _ := hsegments
      exact splits_nil (.follow hdir hstep hnode hend hway)
    | cons _ front =>
      obtain ⟨rfl, rfl⟩ := List.cons.inj hsegments
      obtain ⟨left, hle, mid, entries, hmid, hon, hback⟩ := ih (List.append_assoc _ _ _) hresult
      refine ⟨left, Nat.le_succ_of_le hle, mid, entries,
        .follow hdir (hstep.target front) hnode (by simp) hmid, hon,
        fun name rest' result hname h => .follow hdir (hstep.append_cons hname rest') hnode
          (by simp) ?_⟩
      have hway' := hback name rest' result hname h
      rwa [List.append_assoc] at hway'
  | enter hdir hstep hnode hlink hspelled hway ih =>
    cases front with
    | nil =>
      obtain rfl : rest = _ := hsegments
      exact splits_nil (.enter hdir hstep hnode hlink hspelled hway)
    | cons _ front =>
      obtain ⟨rfl, rfl⟩ := List.cons.inj hsegments
      obtain ⟨left, hle, mid, entries, hmid, hon, hback⟩ := ih rfl hresult
      refine ⟨left, hle, mid, entries,
        .enter hdir (hstep.target front) hnode hlink (by simp) hmid, hon,
        fun name rest' result hname h => .enter hdir (hstep.append_cons hname rest') hnode hlink
          (fun hexceeds => hspelled ?_) (hback name rest' result hname h)⟩
      simp only [Bool.and_eq_true, decide_eq_true_eq] at hexceeds ⊢
      exact ⟨⟨hexceeds.1.1, needsDirectory_append hname hexceeds.1.2 rest⟩, hexceeds.2⟩

end Optable.FileTree
