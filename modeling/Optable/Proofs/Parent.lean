import Mathlib.Data.List.Basic
import Optable.Proofs.Components
/-!
# The parent of a path

The parent of a path is read off its spelling: its last segment is left away, whatever it is, and
with it the segments that make no component around it.  So a path and what is seen from its parent
have the segments in front in common, and where the path ends in a name, it is that name that is
missing.  Nothing else is known of where the parent leads.
-/

namespace Optable.Path

variable {p u b : Path} {back name n up : Text} {front mids stays : List Text}

/-- Segments that make no component. -/
def Stays (segments : List Text) : Prop := ∀ s ∈ segments, Component.ofSegment? s = none

theorem stays_nil : Stays [] := fun _ h => absurd h List.not_mem_nil

theorem stays_singleton {s : Text} (h : Component.ofSegment? s = none) : Stays [s] :=
  List.forall_mem_singleton.2 h

theorem stays_concat {s : Text} (h : Stays stays) (hs : Component.ofSegment? s = none) :
    Stays (stays ++ [s]) := by
  exact List.forall_mem_append.2 ⟨h, stays_singleton hs⟩

theorem filterMap_ofSegment?_of_stays (h : Stays stays) :
    stays.filterMap Component.ofSegment? = [] := List.filterMap_eq_nil_iff.2 h

theorem ofSegment?_ne_none (hne : name ≠ []) (hdot : name ≠ ['.']) :
    Component.ofSegment? name ≠ none := by
  unfold Component.ofSegment?
  split <;> simp_all

theorem exists_splitOn_dropEmptyEnd (back : Text) :
    ∃ stays, Stays stays ∧
      back.reverse.splitOn '/' = (dropEmptyEnd back).reverse.splitOn '/' ++ stays := by
  fun_induction dropEmptyEnd back with
  | case1 back ih =>
    obtain ⟨stays, hstays, hsegments⟩ := ih
    refine ⟨stays ++ [[]], stays_concat hstays rfl, ?_⟩
    rw [List.reverse_cons, List.splitOn_append_cons_self, hsegments, List.append_assoc]
    rfl
  | case2 back ih =>
    obtain ⟨stays, hstays, hsegments⟩ := ih
    refine ⟨stays ++ [['.']], stays_concat hstays rfl, ?_⟩
    rw [List.reverse_cons, List.reverse_cons, List.append_assoc, List.singleton_append,
      List.splitOn_append_cons_self, hsegments, List.append_assoc]
    rfl
  | case3 back => exact ⟨[], stays_nil, (List.append_nil _).symm⟩

theorem dropEmptyEnd_ne_dot_slash (back more : Text) : dropEmptyEnd back ≠ '.' :: '/' :: more := by
  fun_induction dropEmptyEnd back with
  | case1 _ ih => exact ih
  | case2 _ ih => exact ih
  | case3 back hslash hdot =>
    rintro rfl
    exact hdot more rfl

theorem parent?_eq (p : Path) :
    p.parent? =
      if dropEmptyEnd p.text.reverse = [] then none
      else
        let up := dropEmptyEnd ((dropEmptyEnd p.text.reverse).dropWhile (· ≠ '/'))
        some (if up = [] then (if p.isAbsolute then ⟨['/']⟩ else ⟨[]⟩) else ⟨up.reverse⟩) := by
  unfold parent?
  split
  · next h => rw [if_pos h]
  · next h =>
    rw [if_neg h]
    dsimp only
    split
    · next hup => rw [if_pos hup]
    · next hup => rw [if_neg hup]

theorem stays_of_parent?_eq_none (h : p.parent? = none) : Stays (p.text.splitOn '/') := by
  have hback : dropEmptyEnd p.text.reverse = [] := by
    by_contra hne
    rw [parent?_eq, if_neg hne] at h
    cases h
  obtain ⟨stays, hstays, hsegments⟩ := exists_splitOn_dropEmptyEnd p.text.reverse
  rw [← List.reverse_reverse p.text, hsegments, hback]
  exact List.forall_mem_cons.2 ⟨rfl, hstays⟩

/-- How a path with a parent is spelled: as one segment, which then may be a dot, or as the parent
and a segment that makes a component, each of them with some behind it that make none. -/
theorem parent?_cases (h : p.parent? = some u) :
    (∃ last stays, p.text.splitOn '/' = last :: stays ∧ last ≠ [] ∧ Stays stays ∧
      u = if p.isAbsolute then ⟨['/']⟩ else ⟨[]⟩) ∨
    ∃ up mids last stays, p.text.splitOn '/' = up.splitOn '/' ++ (mids ++ last :: stays) ∧
      Component.ofSegment? last ≠ none ∧ Stays mids ∧ Stays stays ∧ up <+: p.text ∧
      up.getLast? ≠ some '/' ∧
      u = if up = [] then (if p.isAbsolute then ⟨['/']⟩ else ⟨[]⟩) else ⟨up⟩ := by
  obtain ⟨stays, hstays, hsegments⟩ := exists_splitOn_dropEmptyEnd p.text.reverse
  have hhead := head?_dropEmptyEnd_ne p.text.reverse
  have hdot := dropEmptyEnd_ne_dot_slash p.text.reverse
  have hsuffix := dropEmptyEnd_suffix p.text.reverse
  rw [List.reverse_reverse] at hsegments
  rw [parent?_eq] at h
  generalize dropEmptyEnd p.text.reverse = back at *
  by_cases hne : back = []
  · rw [if_pos hne] at h
    cases h
  rw [if_neg hne] at h
  obtain rfl := Option.some.inj h
  have hback := List.takeWhile_append_dropWhile (p := (· ≠ '/')) (l := back)
  have hslash : '/' ∉ (back.takeWhile (· ≠ '/')).reverse := fun hmem =>
    absurd (List.all_eq_true.1 List.all_takeWhile _ (List.mem_reverse.1 hmem)) (by decide)
  have hstop := Text.stopsAt_dropWhile (· ≠ '/') back
  generalize back.takeWhile (· ≠ '/') = last, back.dropWhile (· ≠ '/') = before at *
  subst hback
  cases before with
  | nil =>
    rw [List.append_nil] at *
    rw [List.splitOn_eq_singleton hslash] at hsegments
    exact .inl ⟨last.reverse, stays, hsegments, by simpa using hne, hstays, rfl⟩
  | cons slash more =>
    obtain rfl : slash = '/' := by simpa using hstop
    have hlast : Component.ofSegment? last.reverse ≠ none := by
      refine ofSegment?_ne_none ?_ fun hlast => ?_
      · rintro hnil
        rw [List.reverse_eq_nil_iff.1 hnil] at hhead
        exact hhead rfl
      · rw [← List.reverse_reverse last, hlast] at hdot
        exact hdot more rfl
    obtain ⟨mids, hmids, hmore⟩ := exists_splitOn_dropEmptyEnd more
    have hprefix : (dropEmptyEnd more).reverse <+: p.text := by
      rw [← List.reverse_suffix, List.reverse_reverse]
      exact (dropEmptyEnd_suffix more).trans
        ((List.suffix_cons _ _).trans ((List.suffix_append _ _).trans hsuffix))
    rw [List.reverse_append, List.reverse_cons, List.append_assoc, List.singleton_append,
      List.splitOn_append_cons_self, List.splitOn_eq_singleton hslash, hmore] at hsegments
    refine .inr ⟨(dropEmptyEnd more).reverse, mids, last.reverse, stays, by simpa using hsegments,
      hlast, hmids, hstays, hprefix, ?_, ?_⟩
    · rw [List.getLast?_reverse]
      exact head?_dropEmptyEnd_ne more
    · simp [dropEmptyEnd]

theorem not_isAbsolute_of_splitOn (hne : name ≠ []) (h : p.text.splitOn '/' = name :: stays) :
    p.isAbsolute = false := by
  refine Bool.eq_false_iff.2 fun habsolute => ?_
  obtain ⟨t, ht⟩ := List.head?_eq_some_iff.1 (of_decide_eq_true habsolute)
  rw [ht, splitOn_slash_cons] at h
  exact hne (List.cons.inj h).1.symm

theorem isAbsolute_of_splitOn (h : p.text.splitOn '/' = [] :: stays) (hne : p.text ≠ []) :
    p.isAbsolute := by
  by_contra habsolute
  obtain ⟨first, rest, hfirst, hsegments⟩ :=
    exists_splitOn_eq_cons hne fun hhead => habsolute (decide_eq_true hhead)
  rw [h] at hsegments
  exact hfirst (List.cons.inj hsegments).1.symm

/-- The segments of a path that is seen from another one: those of the two, but for the last one of
the first path where that ends in a slash. -/
theorem splitOn_join_eq (hp : p.text ≠ []) (hb : b.isAbsolute = false) :
    (p.join b).text.splitOn '/' =
      (if p.text.getLast? = some '/' then (p.text.splitOn '/').dropLast else p.text.splitOn '/') ++
        b.text.splitOn '/' := by
  have hempty : p.text.isEmpty = false := by simpa using hp
  rw [join, hb, hempty, Bool.false_or, if_neg Bool.false_ne_true]
  by_cases hlast : p.text.getLast? = some '/'
  · obtain ⟨front, hfront⟩ := List.getLast?_eq_some_iff.1 hlast
    have hend : ([] : Text).splitOn '/' = [[]] := rfl
    rw [if_pos (decide_eq_true hlast), if_pos hlast, hfront, List.append_assoc,
      List.splitOn_append_cons_self, hend, List.dropLast_concat]
    exact List.splitOn_append_cons_self _ _
  · rw [if_neg (by simpa using hlast), if_neg hlast]
    exact List.splitOn_append_cons_self _ _

theorem text_join_ne_nil (p : Path) (hb : b.text ≠ []) : (p.join b).text ≠ [] := by
  unfold join
  split
  · exact hb
  · split <;> simp [hb]

/-- Segments that are in front of every path that is seen from a path, where they are followed by
some more, and of every path that is seen from another one above it. -/
structure Upper (p u : Path) (front rest : List Text) : Prop where
  text_subset : u.text ⊆ '/' :: p.text
  splitOn_join_self : ∀ b : Path, b.isAbsolute = false → b.text ≠ [] →
    (p.join b).text.splitOn '/' = front ++ (rest ++ b.text.splitOn '/')
  splitOn_join : ∀ b : Path, b.isAbsolute = false → b.text ≠ [] →
    (u.join b).text.splitOn '/' = front ++ b.text.splitOn '/'
  isAbsolute_join : ∀ b : Path, b.isAbsolute = false → b.text ≠ [] →
    (u.join b).isAbsolute = p.isAbsolute

theorem exists_upper_self (hne : p.text ≠ []) :
    ∃ front, Upper p p front [] ∧
      (p.text.splitOn '/' = front ∨ p.text.splitOn '/' = front ++ [[]]) := by
  refine ⟨_, ⟨List.subset_cons_self _ _, fun b hb _ => splitOn_join_eq hne hb,
    fun b hb _ => splitOn_join_eq hne hb, fun b hb _ => isAbsolute_join_eq hb hne⟩, ?_⟩
  split
  · next hlast =>
    obtain ⟨front, hfront⟩ := List.getLast?_eq_some_iff.1 hlast
    right
    rw [hfront, List.splitOn_append_cons_self]
    simp
  · exact .inl rfl

/-- A segment that is not empty is not the one behind a slash at the end, so that it stands in front
of all that is seen from the path. -/
theorem exists_splitOn_join (hsegments : p.text.splitOn '/' = front ++ (mids ++ name :: stays))
    (hne : p.text ≠ []) (hname : name ≠ []) (hstays : Stays stays) :
    ∃ stays', Stays stays' ∧ ∀ b : Path, b.isAbsolute = false → b.text ≠ [] →
      (p.join b).text.splitOn '/' = front ++ ((mids ++ name :: stays') ++ b.text.splitOn '/') := by
  by_cases hlast : p.text.getLast? = some '/'
  · have hend : stays ≠ [] := by
      rintro rfl
      obtain ⟨t, ht⟩ := List.getLast?_eq_some_iff.1 hlast
      rw [ht, List.splitOn_append_cons_self] at hsegments
      have hsame : some [] = some name := by simpa using congrArg List.getLast? hsegments
      exact hname (Option.some.inj hsame).symm
    refine ⟨stays.dropLast, fun s hs => hstays s (List.dropLast_subset _ hs), fun b hb _ => ?_⟩
    rw [splitOn_join_eq hne hb, if_pos hlast, hsegments, ← List.append_assoc front,
      List.dropLast_append_of_ne_nil (List.cons_ne_nil _ _), List.dropLast_cons_of_ne_nil hend]
    simp
  · refine ⟨stays, hstays, fun b hb _ => ?_⟩
    rw [splitOn_join_eq hne hb, if_neg hlast, hsegments, List.append_assoc]

theorem upper_empty {rest : List Text} (habsolute : p.isAbsolute = false)
    (hself : ∀ b : Path, b.isAbsolute = false → b.text ≠ [] →
      (p.join b).text.splitOn '/' = [] ++ (rest ++ b.text.splitOn '/')) :
    Upper p ⟨[]⟩ [] rest where
  text_subset := List.nil_subset _
  splitOn_join_self := hself
  splitOn_join b hb _ := by
    rw [join, hb]
    rfl
  isAbsolute_join b hb _ := by
    rw [join, hb, habsolute]
    exact hb

theorem upper_root {rest : List Text} (habsolute : p.isAbsolute)
    (hself : ∀ b : Path, b.isAbsolute = false → b.text ≠ [] →
      (p.join b).text.splitOn '/' = [[]] ++ (rest ++ b.text.splitOn '/')) :
    Upper p ⟨['/']⟩ [[]] rest where
  text_subset := List.cons_subset_cons _ (List.nil_subset _)
  splitOn_join_self := hself
  splitOn_join b hb _ := by
    rw [join, hb]
    exact splitOn_slash_cons b.text
  isAbsolute_join b hb _ := by
    rw [join, hb, habsolute]
    rfl

theorem upper_of_isPrefix {rest : List Text} (hne : up ≠ []) (hlast : up.getLast? ≠ some '/')
    (hbefore : up <+: p.text) (hself : ∀ b : Path, b.isAbsolute = false → b.text ≠ [] →
      (p.join b).text.splitOn '/' = up.splitOn '/' ++ (rest ++ b.text.splitOn '/')) :
    Upper p ⟨up⟩ (up.splitOn '/') rest where
  text_subset := List.Subset.trans hbefore.subset (List.subset_cons_self _ _)
  splitOn_join_self := hself
  splitOn_join b hb _ := by
    rw [splitOn_join_eq hne hb, if_neg hlast]
  isAbsolute_join b hb _ := by
    obtain ⟨behind, hbehind⟩ := hbefore
    rw [isAbsolute_join_eq hb hne, isAbsolute, isAbsolute, ← hbehind,
      List.head?_append_of_ne_nil _ hne]

theorem getLast?_components_of_splitOn {c : Component}
    (hsegments : p.text.splitOn '/' = front ++ (mids ++ name :: stays)) (hstays : Stays stays)
    (hname : Component.ofSegment? name = some c) : p.components.getLast? = some c := by
  rw [components_eq, inner, hsegments, List.filterMap_append, List.filterMap_append,
    List.filterMap_cons, hname, filterMap_ofSegment?_of_stays hstays, ← List.append_assoc,
    ← List.append_assoc]
  exact List.getLast?_concat

/-- A path whose segments make no component ends in no name; it can only be a dot or the root. -/
theorem name?_of_stays (h : Stays (p.text.splitOn '/')) : p.name? = none := by
  rw [name?, components_eq, inner, filterMap_ofSegment?_of_stays h, List.append_nil]
  rcases start_cases p.text with hstart | hstart | hstart <;> rw [hstart] <;> rfl

/-- The parent of a path leaves one segment away, and some around it that make no component.  Where
the path ends in a name, the segment is that name. -/
theorem exists_upper_of_parent? (h : p.parent? = some u) :
    ∃ front mids last stays, Upper p u front (mids ++ last :: stays) ∧ Stays mids ∧ Stays stays ∧
      ∀ n, p.name? = some n → last = n := by
  have hne : p.text ≠ [] := by
    rintro hnil
    rw [parent?_eq, hnil] at h
    cases h
  have hname {front mids stays : List Text} {last : Text}
      (hsegments : p.text.splitOn '/' = front ++ (mids ++ last :: stays)) (hstays : Stays stays)
      (hlast : Component.ofSegment? last ≠ none) (n : Text) (hn : p.name? = some n) :
      last = n := by
    obtain ⟨c, hc⟩ := Option.ne_none_iff_exists'.1 hlast
    rw [name?, getLast?_components_of_splitOn hsegments hstays hc] at hn
    obtain rfl : c = .name n := by cases c <;> simp_all
    exact (text_of_ofSegment? hc).symm
  rcases parent?_cases h with ⟨last, stays, hsegments, hlast, hstays, rfl⟩ |
    ⟨up, mids, last, stays, hsegments, hlast, hmids, hstays, hprefix, hend, rfl⟩
  · have habsolute := not_isAbsolute_of_splitOn hlast hsegments
    rw [← List.nil_append (last :: stays), ← List.nil_append (_ ++ _)] at hsegments
    obtain ⟨stays', hstays', hself⟩ := exists_splitOn_join hsegments hne hlast hstays
    refine ⟨[], [], last, stays', ?_, stays_nil, hstays', fun n hn => ?_⟩
    · rw [habsolute]
      exact upper_empty habsolute hself
    · refine hname hsegments hstays (fun hnone => ?_) n hn
      have hall : Stays (p.text.splitOn '/') := by
        rw [hsegments]
        exact List.forall_mem_cons.2 ⟨hnone, hstays⟩
      rw [name?_of_stays hall] at hn
      cases hn
  · have hne' : last ≠ [] := by
      rintro rfl
      exact hlast rfl
    obtain ⟨stays', hstays', hself⟩ := exists_splitOn_join hsegments hne hne' hstays
    refine ⟨up.splitOn '/', mids, last, stays', ?_, hmids, hstays', hname hsegments hstays hlast⟩
    by_cases hup : up = []
    · subst hup
      have habsolute := isAbsolute_of_splitOn hsegments hne
      rw [if_pos rfl, if_pos habsolute]
      exact upper_root habsolute hself
    · rw [if_neg hup]
      exact upper_of_isPrefix hup hend hprefix hself

/-- The parent of a path, or the path itself where it has none. -/
theorem exists_upper (hne : p.text ≠ []) : ∃ front rest, Upper p (p.parent?.getD p) front rest := by
  cases hparent : p.parent? with
  | some u =>
    obtain ⟨front, mids, last, stays, hupper, -⟩ := exists_upper_of_parent? hparent
    exact ⟨front, _, hupper⟩
  | none =>
    obtain ⟨front, hupper, -⟩ := exists_upper_self hne
    exact ⟨front, [], hupper⟩

theorem isInner_of_name? (h : p.name? = some n) : (Component.name n).IsInner := by
  have hmem : .name n ∈ p.components := by
    unfold name? at h
    split at h
    · next hlast =>
      cases h
      exact List.mem_of_getLast? hlast
    · cases h
  rw [components_eq, List.mem_append] at hmem
  refine isInner_of_mem_inner (hmem.resolve_left fun hstart => ?_)
  rcases start_cases p.text with h | h | h <;> rw [h] at hstart <;> simp at hstart

/-- A path that ends in a name leaves that name away. -/
theorem exists_upper_of_name? (h : p.name? = some n) :
    ∃ front mids stays, Upper p (p.parent?.getD p) front (mids ++ n :: stays) ∧ Stays mids ∧
      Stays stays := by
  cases hparent : p.parent? with
  | some u =>
    obtain ⟨front, mids, last, stays, hupper, hmids, hstays, hlast⟩ :=
      exists_upper_of_parent? hparent
    obtain rfl := hlast n h
    exact ⟨front, mids, stays, hupper, hmids, hstays⟩
  | none =>
    rw [name?_of_stays (stays_of_parent?_eq_none hparent)] at h
    cases h

end Optable.Path
