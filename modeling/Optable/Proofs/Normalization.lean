import Optable.Lint.Selection
import Optable.Proofs.Canonical
/-!
# Normalized paths

A normalized path is absolute and its own normal form, since relative paths are seen from the
current directory by normalization and by canonical forms alike.  This is all that is used of a file
system, and a file tree is one.
-/

namespace Optable

/-- The path of a compiled file as the database gives it.  A relative one is seen from its
directory, if there is one. -/
def CompiledFile.located (c : CompiledFile) : Path :=
  match c.directory with
  | some dir => if c.file.isAbsolute then c.file else dir.join c.file
  | none => c.file

namespace Lint.PathSense

/-- Canonical forms are absolute and canonical themselves, and relative paths are seen from an
absolute current directory.  Only the empty path may have no canonical form although the current
directory has one, which is then the directory itself. -/
structure IsFileSystem (sense : PathSense) (current : Path) : Prop where
  current?_eq : sense.current? = some current
  isAbsolute_current : current.isAbsolute
  isAbsolute_canonical : ∀ p q, sense.canonical? p = some q → q.isAbsolute
  canonical_canonical : ∀ p q, sense.canonical? p = some q → sense.canonical? q = some q
  canonical_join : ∀ p, p.isAbsolute = false → p.text ≠ [] →
    sense.canonical? (current.join p) = sense.canonical? p
  canonical_empty : sense.canonical? ⟨[]⟩ = none →
    ∀ q, sense.canonical? (current.join ⟨[]⟩) = some q → q.components = current.components

variable {sense : PathSense} {current p q : Path}

theorem compiledPath_eq (sense : PathSense) (c : CompiledFile) :
    sense.compiledPath c = sense.normalize c.located := by
  unfold compiledPath CompiledFile.located
  cases c.directory with
  | none => rfl
  | some dir =>
    dsimp only
    split
    · next habsolute => rw [Path.join_of_isAbsolute habsolute]
    · rfl

theorem normalize_of_eq_some (h : sense.canonical? p = some q) : sense.normalize p = q := by
  rw [normalize, h]

theorem IsFileSystem.normalize_of_eq_none (hsense : sense.IsFileSystem current)
    (h : sense.canonical? p = none) : sense.normalize p = current.join p := by
  rw [normalize, h]
  show sense.absolute p = _
  rw [absolute, hsense.current?_eq]

theorem IsFileSystem.isAbsolute_normalize (hsense : sense.IsFileSystem current) (p : Path) :
    (sense.normalize p).isAbsolute := by
  cases hcanonical : sense.canonical? p with
  | some q =>
    rw [normalize_of_eq_some hcanonical]
    exact hsense.isAbsolute_canonical p q hcanonical
  | none =>
    rw [hsense.normalize_of_eq_none hcanonical]
    exact Path.isAbsolute_join hsense.isAbsolute_current

/-- A path without a canonical form has none when it is seen from the current directory, but for
the empty path. -/
theorem IsFileSystem.canonical_join_of_eq_none (hsense : sense.IsFileSystem current)
    (h : sense.canonical? p = none) (hq : sense.canonical? (current.join p) = some q) :
    q.components = (current.join p).components := by
  obtain ⟨slash, hcurrent⟩ := List.head?_eq_some_iff.1 (of_decide_eq_true hsense.isAbsolute_current)
  have hne : current.text ≠ [] := by simp [hcurrent]
  cases habsolute : p.isAbsolute with
  | true =>
    rw [Path.join_of_isAbsolute habsolute, h] at hq
    cases hq
  | false =>
    by_cases hempty : p.text = []
    · obtain ⟨t⟩ := p
      obtain rfl : t = [] := hempty
      rw [Path.components_join_nil hne]
      exact hsense.canonical_empty h q hq
    · rw [hsense.canonical_join p habsolute hempty, h] at hq
      cases hq

/-- A normalized path is its own normal form. -/
theorem IsFileSystem.components_normalize (hsense : sense.IsFileSystem current) (p : Path) :
    (sense.normalize (sense.normalize p)).components = (sense.normalize p).components := by
  cases hcanonical : sense.canonical? p with
  | some q =>
    rw [normalize_of_eq_some hcanonical,
      normalize_of_eq_some (hsense.canonical_canonical p q hcanonical)]
  | none =>
    rw [hsense.normalize_of_eq_none hcanonical]
    cases hagain : sense.canonical? (current.join p) with
    | some q =>
      rw [normalize_of_eq_some hagain]
      exact hsense.canonical_join_of_eq_none hcanonical hagain
    | none =>
      have habsolute := Path.isAbsolute_join (p := p) hsense.isAbsolute_current
      rw [hsense.normalize_of_eq_none hagain, Path.join_of_isAbsolute habsolute]

/-! ## File trees -/

open FileTree

variable {tree : FileTree} {names : List Text}

theorem toOption_eq_some_iff {ε α : Type} {x : Except ε α} {a : α} :
    x.toOption = some a ↔ x = .ok a := by
  cases x <;> simp [Except.toOption]

/-- A relative path means the same when it is seen from the path of the current directory. -/
theorem canonical_join_current (hsound : tree.root.IsSound) (hcurrent : tree.current = .place names)
    (hdir : (tree.root.get? names).any Node.isDir) (hfits : ¬ exceeds names 1)
    (hrelative : p.isAbsolute = false) (hne : p.text ≠ []) :
    tree.canonical ((pathOf names).join p) = tree.canonical p := by
  obtain ⟨entries, hentries⟩ := any_isDir_iff.1 hdir
  have hfollow : tree.follow .spelling ((pathOf names).join p) = tree.follow .spelling p := by
    rw [follow_pathOf_join hsound (Node.isDir_of_any hdir) hentries nofun hrelative (by decide)
      fun _ => hfits]
    rw [follow, if_neg (by simpa using hne), hrelative, hcurrent]
    rfl
  have hnul : '\x00' ∈ ((pathOf names).join p).text ↔ '\x00' ∈ p.text := by
    rw [Path.mem_text_join_iff hrelative (by decide), or_iff_right]
    exact nul_notMem_pathOf (hsound.isName hentries)
  have hseen : (!p.isAbsolute && tree.currentPath?.isNone) = false := by
    simp [currentPath?, hcurrent]
  have habsolute : ((pathOf names).join p).isAbsolute :=
    Path.isAbsolute_join (isAbsolute_pathOf names)
  unfold canonical
  rw [hfollow, hseen, habsolute]
  simp only [hnul, Bool.not_true, Bool.false_and]

/-- A file tree is a file system, if its current directory is there and its path is not too long. -/
theorem isFileSystem_ofTree (hsound : tree.root.IsSound) (hcurrent : tree.current = .place names)
    (hdir : (tree.root.get? names).any Node.isDir) (hfits : ¬ exceeds names 1) :
    (ofTree tree).IsFileSystem (pathOf names) where
  current?_eq := by
    show tree.currentPath? = _
    rw [currentPath?, hcurrent]
  isAbsolute_current := isAbsolute_pathOf names
  isAbsolute_canonical p q h := by
    obtain ⟨_, found, _, _, rfl⟩ := exists_spells (toOption_eq_some_iff.1 h)
    exact isAbsolute_pathOf found
  canonical_canonical p q h := by
    refine toOption_eq_some_iff.2 (canonical_canonical hsound ?_ (toOption_eq_some_iff.1 h))
    rintro names' hnames'
    obtain rfl : names' = names := by simpa [hcurrent] using hnames'.symm
    exact not_exceeds_iff.2 (by have := not_exceeds_iff.1 hfits; omega)
  canonical_join p hrelative hne := by
    show (tree.canonical _).toOption = (tree.canonical p).toOption
    rw [canonical_join_current hsound hcurrent hdir hfits hrelative hne]
  canonical_empty _ q h := by
    obtain ⟨entries, hentries⟩ := any_isDir_iff.1 hdir
    obtain ⟨-, -, found, node, hfollow, rfl⟩ := canonical_eq_ok_iff.1 (toOption_eq_some_iff.1 h)
    have hwalk : tree.follow .spelling ((pathOf names).join ⟨[]⟩) =
        walk tree.root .spelling linkLimit names [[]] :=
      follow_pathOf_join hsound (Node.isDir_of_any hdir) hentries nofun rfl (by decide)
        fun _ => hfits
    rw [hwalk, walk_nil_cons hdir, walk_nil, hentries] at hfollow
    cases hfollow
    rfl

end Lint.PathSense

end Optable
