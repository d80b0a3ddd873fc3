import Mathlib.Data.List.Forall2
import Optable.Pattern
import Optable.Proofs.Components
/-!
# What patterns stand for

A text without special characters stands for itself, and so does every escaped text.  So the pattern
of what lies directly inside a directory can be read whatever the path of the directory, and it
stands for the paths with one more name, of the given ending.
-/

namespace Optable.Pattern

/-- Whether a pattern stands for a path, segment by segment. -/
def Matches (pattern : Text) (p : Path) : Prop :=
  List.Forall₂ (fun segment name => standsFor segment name) (pattern.splitOn '/')
    (p.text.splitOn '/')

/-- The piece of an escaped character. -/
def literal (c : Char) : Piece := if isSpecial c then .within [(c, c)] else .char c

variable {s t : Text} {c : Char}

theorem escape_cons (c : Char) (t : Text) :
    escape (c :: t) = (if isSpecial c then ['[', c, ']'] else [c]) ++ escape t := rfl

theorem isSpecial_iff : isSpecial c ↔ c = '?' ∨ c = '*' ∨ c = '[' ∨ c = ']' := by
  simp [isSpecial, or_assoc]

theorem read?_bracketed (hc : c ≠ '!') (t : Text) :
    read? ('[' :: c :: ']' :: t) = (read? t).map (.within [(c, c)] :: ·) := by
  have hcut : Text.cut? ']' (']' :: t) = some ([], t) := rfl
  rw [read?]
  · split
    · next inside rest h =>
      obtain ⟨rfl, rfl⟩ := Prod.mk.inj (Option.some.inj (hcut.symm.trans h))
      rfl
    · next h =>
      rw [hcut] at h
      cases h
  · exact fun _ _ h => absurd h hc
  · exact hc

theorem read?_char (hc : ¬ isSpecial c) (t : Text) :
    read? (c :: t) = (read? t).map (.char c :: ·) := by
  rw [isSpecial_iff] at hc
  rw [read?] <;> simp_all

theorem read?_escape_append (t u : Text) :
    read? (escape t ++ u) = (read? u).map (t.map literal ++ ·) := by
  induction t with
  | nil => simp [escape]
  | cons c t ih =>
    rw [escape_cons, List.append_assoc, List.map_cons]
    by_cases hc : isSpecial c
    · have hexclaim : c ≠ '!' := by
        rintro rfl
        cases hc
      rw [if_pos hc, literal, if_pos hc]
      show read? ('[' :: c :: ']' :: (escape t ++ u)) = _
      rw [read?_bracketed hexclaim, ih, Option.map_map]
      rfl
    · rw [if_neg hc, literal, if_neg hc]
      show read? (c :: (escape t ++ u)) = _
      rw [read?_char hc, ih, Option.map_map]
      rfl

theorem lies_singleton_iff {d : Char} : lies [(c, c)] d ↔ d = c := by
  have hle : c ≤ d ∧ d ≤ c ↔ d = c :=
    ⟨fun ⟨hcd, hdc⟩ => Char.le_antisymm hdc hcd, fun h => h ▸ ⟨Char.le_refl _, Char.le_refl _⟩⟩
  simpa [lies] using hle

theorem fits_literal_iff : fits (t.map literal) s ↔ s = t := by
  induction t generalizing s with
  | nil => simp [fits]
  | cons c t ih =>
    rw [List.map_cons, literal]
    cases s with
    | nil => split <;> simp [fits]
    | cons d s =>
      split
      · rw [fits, Bool.and_eq_true, lies_singleton_iff, ih, List.cons.injEq]
      · rw [fits, Bool.and_eq_true, decide_eq_true_iff, ih, List.cons.injEq]

/-- A star in front of a literal end stands for every text with this end. -/
theorem fits_text_literal_iff : fits (.text :: t.map literal) s ↔ t <:+ s := by
  induction s with
  | nil => rw [fits, fits_literal_iff, List.suffix_nil, eq_comm]
  | cons c s ih => rw [fits, Bool.or_eq_true, fits_literal_iff, ih, List.suffix_cons_iff, eq_comm]

theorem escape_append (s t : Text) : escape (s ++ t) = escape s ++ escape t :=
  List.flatMap_append

theorem slash_notMem_escape (h : '/' ∉ t) : '/' ∉ escape t := by
  intro hmem
  obtain ⟨c, hc, hslash⟩ := List.mem_flatMap.1 hmem
  have hne : '/' ≠ c := fun heq => h (heq ▸ hc)
  split at hslash <;> simp_all

theorem escape_intercalate (segments : List Text) :
    escape (List.intercalate ['/'] segments) = List.intercalate ['/'] (segments.map escape) := by
  induction segments with
  | nil => rfl
  | cons segment segments ih =>
    cases segments with
    | nil => simp
    | cons next segments =>
      rw [List.intercalate_cons_cons, escape_append, escape_append, ih]
      simp only [List.map_cons, List.intercalate_cons_cons]
      rfl

/-- The segments of an escaped text are its escaped segments. -/
theorem splitOn_escape (t : Text) : (escape t).splitOn '/' = (t.splitOn '/').map escape := by
  have hslash : ∀ segment ∈ (t.splitOn '/').map escape, '/' ∉ segment :=
    List.forall_mem_map.2 fun _ h => slash_notMem_escape (Path.slash_notMem_of_mem_splitOn h)
  calc (escape t).splitOn '/'
      = (List.intercalate ['/'] ((t.splitOn '/').map escape)).splitOn '/' := by
        rw [← escape_intercalate, List.intercalate_splitOn]
    _ = (t.splitOn '/').map escape :=
        List.splitOn_intercalate '/' hslash (by simp)

theorem read?_escape (t : Text) : read? (escape t) = some (t.map literal) := by
  have hread := read?_escape_append t []
  rwa [List.append_nil, read?, Option.map_some, List.append_nil] at hread

/-- An escaped text stands for itself only. -/
theorem standsFor_escape_iff : standsFor (escape t) s ↔ s = t := by
  rw [standsFor, read?_escape, Option.any_some, fits_literal_iff]

theorem escape_injective : Function.Injective escape := by
  intro s t h
  have ht : standsFor (escape t) t := standsFor_escape_iff.2 rfl
  rw [← h] at ht
  exact (standsFor_escape_iff.1 ht).symm

theorem escape_eq_self (h : t.all fun c => !isSpecial c) : escape t = t := by
  induction t with
  | nil => rfl
  | cons c t ih =>
    obtain ⟨hc, ht⟩ : isSpecial c = false ∧ t.all fun c => !isSpecial c := by simpa using h
    rw [escape_cons, hc, ih ht]
    rfl

section Inside

variable {dir p : Path} {segments l : List Text} {ending : Text}
  (hending : ending.all fun c => !isSpecial c)
include hending

theorem read?_star : read? ('*' :: ending) = some (.text :: ending.map literal) := by
  have hread := read?_escape ending
  rw [escape_eq_self hending] at hread
  rw [read?, hread]
  · rfl
  · rintro t rfl
    simp [isSpecial] at hending

theorem standsFor_star_iff : standsFor ('*' :: ending) s ↔ ending <:+ s := by
  rw [standsFor, read?_star hending, Option.any_some, fits_text_literal_iff]

theorem forall₂_standsFor_iff :
    List.Forall₂ (fun segment name => standsFor segment name)
        (segments.map escape ++ ['*' :: ending]) l ↔
      ∃ name, l = segments ++ [name] ∧ ending <:+ name := by
  induction segments generalizing l with
  | nil => simp [List.forall₂_cons_left_iff, standsFor_star_iff hending, and_comm]
  | cons segment segments ih =>
    rw [List.map_cons, List.cons_append, List.forall₂_cons_left_iff]
    simp only [standsFor_escape_iff, ih]
    constructor
    · rintro ⟨_, _, rfl, ⟨name, rfl, hname⟩, rfl⟩
      exact ⟨name, rfl, hname⟩
    · rintro ⟨name, rfl, hname⟩
      exact ⟨segment, segments ++ [name], rfl, ⟨name, rfl, hname⟩, rfl⟩

variable (hslash : '/' ∉ ending)
include hslash

omit hending in
theorem splitOn_inside (dir : Path) :
    (inside dir ending).splitOn '/' = (dir.text.splitOn '/').map escape ++ ['*' :: ending] := by
  have hlast : ('*' :: ending).splitOn '/' = ['*' :: ending] :=
    List.splitOn_eq_singleton (by simpa using hslash)
  rw [inside, List.splitOn_append_cons_self, splitOn_escape, hlast]

/-- The pattern is read, whatever the path of the directory. -/
theorem isSome_read?_inside (dir : Path) :
    ∀ segment ∈ (inside dir ending).splitOn '/', (read? segment).isSome := by
  rw [splitOn_inside hslash]
  refine List.forall_mem_append.2 ⟨List.forall_mem_map.2 fun t _ => ?_, ?_⟩
  · rw [read?_escape]
    rfl
  · rw [List.forall_mem_singleton, read?_star hending]
    rfl

/-- The characters of the directory's path stand for themselves. -/
theorem matches_inside_iff :
    Matches (inside dir ending) p ↔
      ∃ name, p.text.splitOn '/' = dir.text.splitOn '/' ++ [name] ∧ ending <:+ name := by
  rw [Matches, splitOn_inside hslash, forall₂_standsFor_iff hending]

end Inside

end Optable.Pattern
