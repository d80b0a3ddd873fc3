import Mathlib.Data.List.Nodup
import Optable.Finder
import Optable.Proofs.Directory
import Optable.Proofs.Pattern
/-!
# Exact finders

A finder is exact if it refuses no pattern that can be read and if, for a pattern that goes down
from the root by names, it finds the paths of the tree that the pattern stands for, each once.  The
search of this library is exact.
-/

namespace Optable

open FileTree

/-- Whether a pattern goes down from the root, with neither dots nor nothing between its slashes. -/
def Pattern.IsDescent (pattern : Text) : Prop :=
  ∃ segments, segments ≠ [] ∧ pattern.splitOn '/' = [] :: segments ∧
    ∀ segment ∈ segments, Path.Component.ofSegment? segment = some (.name segment)

/-- What is known of a finder.  Nothing is said about patterns that are not read here, about those
that do not go down from the root by names, and about the order of what is found. -/
structure Finder.IsExact (find : Finder) : Prop where
  accepts : ∀ tree pattern, (∀ segment ∈ pattern.splitOn '/', (Pattern.read? segment).isSome) →
    ∃ found, find tree pattern = .ok found
  sound : ∀ {tree : FileTree} {pattern : Text} {found p}, tree.root.IsSound →
    Pattern.IsDescent pattern → find tree pattern = .ok found → .ok p ∈ found →
    Pattern.Matches pattern p
  complete : ∀ {tree : FileTree} {pattern : Text} {found names}, tree.root.IsSound →
    Pattern.IsDescent pattern → find tree pattern = .ok found → names ≠ [] →
    (∀ name ∈ names, IsName name) → tree.occupied (pathOf names) →
    Pattern.Matches pattern (pathOf names) → .ok (pathOf names) ∈ found
  nodup : ∀ {tree : FileTree} {pattern : Text} {found}, tree.root.IsSound →
    Pattern.IsDescent pattern → find tree pattern = .ok found →
    (found.filterMap Except.toOption).Nodup

namespace Pattern

variable {tree : FileTree} {place names : List Text} {name segment : Text} {p q : Path}
  {segments : List Text}

/-- A segment without special characters stands for itself only. -/
theorem standsFor_iff_of_plain (h : ¬ segment.any isSpecial) :
    standsFor segment name ↔ name = segment := by
  conv_lhs => rw [← escape_eq_self (t := segment) (by simpa using h)]
  exact standsFor_escape_iff

theorem extend_pathOf (place : List Text) (segment : Text) :
    extend (pathOf place) segment = (pathOf place).join ⟨segment⟩ := by
  have hroot : (pathOf place).components ≠ [.here] := by
    rw [pathOf, Path.components_slash_cons]
    exact fun h => Path.Component.noConfusion (List.cons.inj h).1
  rw [extend, if_neg hroot]

section Below

variable (hplace : ∀ name ∈ place, IsName name)
include hplace

theorem extend_pathOf_name (hname : IsName name) :
    extend (pathOf place) name = pathOf (place ++ [name]) := by
  rw [extend_pathOf, join_pathOf_name hplace hname]

/-- One segment further down there are entries of the directory that was reached. -/
theorem exists_name_of_mem_below (hsound : tree.root.IsSound) (hslash : '/' ∉ segment)
    (hsegment : Path.Component.ofSegment? segment = some (.name segment))
    (h : q ∈ below tree (pathOf place) segment) :
    ∃ name, IsName name ∧ standsFor segment name ∧ q = pathOf (place ++ [name]) := by
  unfold below at h
  split at h
  · obtain ⟨name, hmem, rfl⟩ := List.mem_map.1 h
    obtain ⟨hmem, hstands⟩ := List.mem_filter.1 (List.mem_mergeSort.1 hmem)
    have hname := isName_of_mem_names hsound hmem
    exact ⟨name, hname, hstands, extend_pathOf_name hplace hname⟩
  · next hplain =>
    split at h
    · next hleads =>
      obtain rfl := List.mem_singleton.1 h
      have hdots : ¬ (segment = ['.'] ∨ segment = ['.', '.']) := by
        rintro (rfl | rfl) <;> cases hsegment
      rw [leadsOn, if_neg hdots, extend_pathOf] at hleads
      have hname :=
        isName_of_mem_names hsound (mem_names_of_occupied hplace hsegment hslash hleads)
      exact ⟨segment, hname, (standsFor_iff_of_plain hplain).2 rfl,
        extend_pathOf_name hplace hname⟩
    · cases h

theorem mem_below (hname : IsName name) (hstands : standsFor segment name)
    (h : tree.occupied (pathOf (place ++ [name]))) :
    pathOf (place ++ [name]) ∈ below tree (pathOf place) segment := by
  unfold below
  split
  · rw [← join_pathOf_name hplace hname] at h
    have hmem := mem_names_of_occupied hplace hname.ofSegment?_eq hname.slash_notMem h
    exact List.mem_map.2 ⟨name, List.mem_mergeSort.2 (List.mem_filter.2 ⟨hmem, hstands⟩),
      extend_pathOf_name hplace hname⟩
  · next hplain =>
    obtain rfl := (standsFor_iff_of_plain hplain).1 hstands
    rw [leadsOn, if_neg hname.ne_dots, extend_pathOf_name hplace hname, if_pos h]
    exact List.mem_singleton_self _

theorem pathOf_append_inj {rest rest' : List Text} {name' : Text}
    (hnames : ∀ n ∈ name :: rest, IsName n) (hnames' : ∀ n ∈ name' :: rest', IsName n)
    (h : pathOf (place ++ name :: rest) = pathOf (place ++ name' :: rest')) : name = name' := by
  have heq := eq_of_pathOf_eq (List.forall_mem_append.2 ⟨hplace, hnames⟩)
    (List.forall_mem_append.2 ⟨hplace, hnames'⟩) (by simp) h
  exact (List.cons.inj (List.append_cancel_left heq)).1

theorem nodup_below (hsound : tree.root.IsSound) :
    (below tree (pathOf place) segment).Nodup := by
  unfold below
  split
  · have hnames := (nodup_names hsound (pathOf place)).filter (standsFor segment)
    refine List.Nodup.map_on (fun a ha b hb hab => ?_)
      ((List.mergeSort_perm _ _).nodup_iff.2 hnames)
    have ha := isName_of_mem_names hsound (List.mem_filter.1 (List.mem_mergeSort.1 ha)).1
    have hb := isName_of_mem_names hsound (List.mem_filter.1 (List.mem_mergeSort.1 hb)).1
    rw [extend_pathOf_name hplace ha, extend_pathOf_name hplace hb] at hab
    exact pathOf_append_inj hplace (by simpa using ha) (by simpa using hb) hab
  · split
    · exact List.nodup_singleton _
    · exact List.nodup_nil

end Below

/-- Whether segments can only stand for names. -/
def AreNames (segments : List Text) : Prop :=
  ∀ segment ∈ segments, Path.Component.ofSegment? segment = some (.name segment) ∧ '/' ∉ segment

theorem exists_names_of_mem_search (hsound : tree.root.IsSound)
    (hplace : ∀ name ∈ place, IsName name) (hsegments : AreNames segments)
    (h : p ∈ search tree (pathOf place) segments) :
    ∃ names, (∀ name ∈ names, IsName name) ∧ p = pathOf (place ++ names) ∧
      List.Forall₂ (fun segment name => standsFor segment name) segments names := by
  induction segments generalizing place with
  | nil => exact ⟨[], by simp, by simpa [search] using h, .nil⟩
  | cons segment rest ih =>
    obtain ⟨⟨hsegment, hslash⟩, hrest⟩ := List.forall_mem_cons.1 hsegments
    obtain ⟨q, hq, h⟩ := List.mem_flatMap.1 h
    obtain ⟨name, hname, hstands, rfl⟩ :=
      exists_name_of_mem_below hplace hsound hslash hsegment hq
    obtain ⟨names, hnames, rfl, hall⟩ :=
      ih (List.forall_mem_append.2 ⟨hplace, by simpa using hname⟩) hrest h
    exact ⟨name :: names, List.forall_mem_cons.2 ⟨hname, hnames⟩,
      by rw [List.append_assoc, List.singleton_append], .cons hstands hall⟩

theorem mem_search (hnames : ∀ name ∈ place ++ names, IsName name)
    (hall : List.Forall₂ (fun segment name => standsFor segment name) segments names)
    (hoccupied : tree.occupied (pathOf (place ++ names))) :
    pathOf (place ++ names) ∈ search tree (pathOf place) segments := by
  induction hall generalizing place with
  | nil =>
    rw [List.append_nil]
    exact List.mem_singleton_self _
  | @cons segment name segments names hstands hall ih =>
    obtain ⟨hplace, hbelow⟩ := List.forall_mem_append.1 hnames
    rw [List.append_cons] at hnames hoccupied ⊢
    -- Only the last name may stand for something else than a directory.
    have hhere : tree.occupied (pathOf (place ++ [name])) := by
      by_cases hnil : names = []
      · rwa [hnil, List.append_nil] at hoccupied
      · exact occupied_of_isDir (isDir_of_occupied_append hnames hnil hoccupied)
    exact List.mem_flatMap.2 ⟨_, mem_below hplace (hbelow name List.mem_cons_self) hstands hhere,
      ih hnames hoccupied⟩

theorem nodup_search (hsound : tree.root.IsSound) (hplace : ∀ name ∈ place, IsName name)
    (hsegments : AreNames segments) : (search tree (pathOf place) segments).Nodup := by
  induction segments generalizing place with
  | nil => exact List.nodup_singleton _
  | cons segment rest ih =>
    obtain ⟨⟨hsegment, hslash⟩, hrest⟩ := List.forall_mem_cons.1 hsegments
    have hbelow {q : Path} (hq : q ∈ below tree (pathOf place) segment) :=
      exists_name_of_mem_below hplace hsound hslash hsegment hq
    have happend {name : Text} (hname : IsName name) : ∀ n ∈ place ++ [name], IsName n :=
      List.forall_mem_append.2 ⟨hplace, by simpa using hname⟩
    refine List.nodup_flatMap.2 ⟨fun q hq => ?_, ?_⟩
    · obtain ⟨name, hname, -, rfl⟩ := hbelow hq
      exact ih (happend hname) hrest
    · refine (nodup_below hplace hsound).imp_of_mem fun {q r} hq hr hne p hp hp' => hne ?_
      -- What both lead to spells the same name behind the place.
      obtain ⟨name, hname, -, rfl⟩ := hbelow hq
      obtain ⟨other, hother, -, rfl⟩ := hbelow hr
      obtain ⟨names, hnames, rfl, -⟩ :=
        exists_names_of_mem_search hsound (happend hname) hrest hp
      obtain ⟨others, hothers, heq, -⟩ :=
        exists_names_of_mem_search hsound (happend hother) hrest hp'
      rw [List.append_assoc, List.append_assoc] at heq
      rw [pathOf_append_inj hplace (List.forall_mem_cons.2 ⟨hname, hnames⟩)
        (List.forall_mem_cons.2 ⟨hother, hothers⟩) heq]

/-- The search for a pattern that goes down by names starts at the root. -/
theorem exists_search_of_isDescent {found : List (Except AccessError Path)} {pattern : Text}
    (hpattern : IsDescent pattern) (h : find tree pattern = .ok found) :
    ∃ segments, segments ≠ [] ∧ AreNames segments ∧ pattern.splitOn '/' = [] :: segments ∧
      found = (search tree (pathOf []) segments).map .ok := by
  obtain ⟨segments, hne, hsplit, hsegments⟩ := hpattern
  obtain ⟨rest, rfl⟩ : ∃ rest, pattern = '/' :: rest := by
    have hjoin : List.intercalate ['/'] (pattern.splitOn '/') = pattern :=
      List.intercalate_splitOn '/'
    obtain ⟨segment, segments, rfl⟩ := List.exists_cons_of_ne_nil hne
    rw [hsplit, List.intercalate_cons_cons] at hjoin
    exact ⟨_, hjoin.symm⟩
  have hrest : rest.splitOn '/' = segments := by
    rw [Path.splitOn_slash_cons] at hsplit
    exact (List.cons.inj hsplit).2
  refine ⟨segments, hne, fun segment hmem => ⟨hsegments segment hmem, ?_⟩, hsplit, ?_⟩
  · rw [← hrest] at hmem
    exact Path.slash_notMem_of_mem_splitOn hmem
  · have hroute : route ('/' :: rest) = (pathOf [], segments) := by
      rw [← hrest]
      rfl
    simp only [find, hroute] at h
    split at h
    · exact (Except.ok.inj h).symm
    · cases h

/-- The search of this library finds what there is, and nothing else. -/
theorem isExact_find : Finder.IsExact find where
  accepts tree pattern hread := by
    have hroute : ∀ segment ∈ (route pattern).2, (read? segment).isSome := by
      unfold route
      split
      · next rest =>
        rw [Path.splitOn_slash_cons] at hread
        exact (List.forall_mem_cons.1 hread).2
      · exact hread
    exact ⟨_, if_pos (List.all_eq_true.2 hroute)⟩
  sound hsound hpattern hfound hp := by
    obtain ⟨segments, hne, hnames, hsplit, rfl⟩ := exists_search_of_isDescent hpattern hfound
    obtain ⟨q, hq, hqp⟩ := List.mem_map.1 hp
    obtain rfl := Except.ok.inj hqp
    obtain ⟨names, hvalid, rfl, hall⟩ :=
      exists_names_of_mem_search hsound (List.forall_mem_nil _) hnames hq
    have hnil : names ≠ [] := by
      rintro rfl
      cases hall
      exact hne rfl
    rw [Matches, hsplit, List.nil_append, splitOn_pathOf hvalid hnil]
    exact .cons (standsFor_escape_iff.2 rfl) hall
  complete _ hpattern hfound hnil hvalid hoccupied hmatches := by
    obtain ⟨segments, -, -, hsplit, rfl⟩ := exists_search_of_isDescent hpattern hfound
    rw [Matches, hsplit, splitOn_pathOf hvalid hnil] at hmatches
    have hall := (List.forall₂_cons.1 hmatches).2
    exact List.mem_map.2 ⟨_, mem_search hvalid hall hoccupied, rfl⟩
  nodup hsound hpattern hfound := by
    obtain ⟨segments, -, hnames, -, rfl⟩ := exists_search_of_isDescent hpattern hfound
    have hok : Except.toOption ∘ Except.ok (ε := AccessError) = (some : Path → Option Path) := rfl
    rw [List.filterMap_map, hok, List.filterMap_some]
    exact nodup_search hsound (List.forall_mem_nil _) hnames

end Pattern
end Optable
