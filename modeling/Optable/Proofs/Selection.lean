import Mathlib.Data.List.Nodup
import Mathlib.Data.Nat.Basic
import Optable.Proofs.Normalization
/-!
# Which sources are selected

Of the compiled files under the directory of the sources the first of each path is kept, where
paths with the same components are one.  Which file is one is so decided by components, and not by
how the database spells it.
-/

namespace Optable

namespace Lint

/-! ## What is read and what is kept -/

section Sources

variable {p : Path} {seen files found : List Path} {compiled : List CompiledFile}
  {read : CompileDatabase.Reader} {tree : FileTree} {buildDir : Path}

theorem not_any_of_mem_distinct (h : p ∈ distinct seen files) : seen.any p.sameAs = false := by
  induction files generalizing seen with
  | nil => cases h
  | cons q files ih =>
    rw [distinct] at h
    split at h
    · exact ih h
    · next hnew =>
      rcases List.mem_cons.1 h with rfl | h
      · simpa using hnew
      · have hlater := ih h
        rw [List.any_cons, Bool.or_eq_false_iff] at hlater
        exact hlater.2

/-- No path is kept that is the same as an earlier one. -/
theorem pairwise_distinct (seen files : List Path) :
    (distinct seen files).Pairwise fun p q => q.sameAs p = false := by
  induction files generalizing seen with
  | nil => exact .nil
  | cons q files ih =>
    rw [distinct]
    split
    · exact ih seen
    · refine List.pairwise_cons.2 ⟨fun p hp => ?_, ih (q :: seen)⟩
      have hlater := not_any_of_mem_distinct hp
      rw [List.any_cons, Bool.or_eq_false_iff] at hlater
      exact hlater.1

theorem nodup_select (sense : PathSense) (buildDir : Path) (files : List CompiledFile) :
    (select sense buildDir files).Nodup := by
  refine (pairwise_distinct _ _).imp fun h => ?_
  rintro rfl
  simp [Path.sameAs] at h

theorem readDatabase_eq_ok_iff :
    readDatabase read tree buildDir = .ok compiled ↔
      ∃ text, tree.readText (buildDir.join CompileDatabase.fileName) = .ok text ∧
        read text = .ok compiled := by
  dsimp only [readDatabase]
  split
  · next h => simp [h]
  · next h => simp [h]
  · next text h =>
    simp only [h, Except.ok.injEq, exists_eq_left']
    split
    · next files hread => simp [hread]
    · next e hread => simp [hread]

theorem sourcesAmong_eq_ok_iff {sense : PathSense} :
    sourcesAmong sense buildDir compiled = .ok found ↔
      found ≠ [] ∧ select sense buildDir compiled = found := by
  unfold sourcesAmong
  split
  · next h => simp [h, eq_comm]
  · next hne =>
    constructor
    · rintro ⟨⟩
      exact ⟨hne, rfl⟩
    · rintro ⟨-, rfl⟩
      rfl

theorem sources_eq_ok_iff :
    sources read tree buildDir = .ok found ↔
      ∃ compiled, readDatabase read tree buildDir = .ok compiled ∧ found ≠ [] ∧
        select (.ofTree tree) buildDir compiled = found := by
  unfold sources
  cases readDatabase read tree buildDir with
  | error fault => simp [bind, Except.bind]
  | ok files => simp [bind, Except.bind, sourcesAmong_eq_ok_iff]

end Sources

/-! ## The first of each path -/

section Firsts

variable {w : Path → Bool} {p : Path} {seen seen' l : List Path}

theorem any_sameAs_iff : seen.any p.sameAs ↔ ∃ q ∈ seen, q.components = p.components := by
  rw [List.any_eq_true]
  exact exists_congr fun q => and_congr_right fun _ => Path.sameAs_iff.trans eq_comm

/-- Of the paths seen before, only the components matter. -/
theorem distinct_congr (h : ∀ p : Path, seen.any p.sameAs = seen'.any p.sameAs) :
    distinct seen l = distinct seen' l := by
  induction l generalizing seen seen' with
  | nil => rfl
  | cons p l ih =>
    rw [distinct, distinct, h p]
    split
    · exact ih h
    · refine congrArg (p :: ·) (ih fun q => ?_)
      rw [List.any_cons, List.any_cons, h q]

theorem distinct_append (seen l l' : List Path) :
    distinct seen (l ++ l') = distinct seen l ++ distinct (l ++ seen) l' := by
  induction l generalizing seen with
  | nil => rfl
  | cons p l ih =>
    rw [List.cons_append, distinct, distinct]
    split
    · next hseen =>
      -- The path is one of those seen before, so that it adds nothing to them.
      rw [ih]
      refine congrArg (distinct seen l ++ ·) (distinct_congr fun q => ?_)
      rw [Bool.eq_iff_iff, any_sameAs_iff, any_sameAs_iff]
      obtain ⟨r, hr, hcomponents⟩ := any_sameAs_iff.1 hseen
      constructor
      · rintro ⟨s, hs, hsame⟩
        exact ⟨s, List.mem_cons_of_mem _ hs, hsame⟩
      · rintro ⟨s, hs, hsame⟩
        rcases List.mem_cons.1 hs with rfl | hs
        · exact ⟨r, List.mem_append_right _ hr, hcomponents.trans hsame⟩
        · exact ⟨s, hs, hsame⟩
    · rw [ih, List.cons_append]
      refine congrArg (p :: distinct (p :: seen) l ++ ·) (distinct_congr fun q => ?_)
      simp only [List.any_append, List.any_cons, List.cons_append]
      rw [Bool.or_left_comm]

theorem distinct_sublist (seen l : List Path) : (distinct seen l).Sublist l := by
  induction l generalizing seen with
  | nil => exact .slnil
  | cons p l ih =>
    rw [distinct]
    split
    · exact (ih seen).cons p
    · exact (ih (p :: seen)).cons_cons p

theorem exists_mem_distinct (hp : p ∈ l) (hnew : ∀ q ∈ seen, q.components ≠ p.components) :
    ∃ q ∈ distinct seen l, q.components = p.components := by
  induction l generalizing seen with
  | nil => cases hp
  | cons r l ih =>
    rw [distinct]
    split
    · next hseen =>
      refine ih ?_ hnew
      rcases List.mem_cons.1 hp with rfl | hp
      · obtain ⟨q, hq, hsame⟩ := any_sameAs_iff.1 hseen
        exact absurd hsame (hnew q hq)
      · exact hp
    · by_cases hr : r.components = p.components
      · exact ⟨r, List.mem_cons_self, hr⟩
      · have hl : p ∈ l := (List.mem_cons.1 hp).resolve_left fun h => hr (by rw [h])
        obtain ⟨q, hq, hsame⟩ := ih hl (List.forall_mem_cons.2 ⟨hr, hnew⟩)
        exact ⟨q, List.mem_cons_of_mem _ hq, hsame⟩

/-- A path that was there before makes no difference. -/
theorem distinct_insert {l' l'' : List Path} (h : ∃ q ∈ l, q.components = p.components) :
    distinct seen (l ++ (l' ++ p :: l'')) = distinct seen (l ++ (l' ++ l'')) := by
  have hseen : (l' ++ (l ++ seen)).any p.sameAs := by
    obtain ⟨q, hq, hcomponents⟩ := h
    exact any_sameAs_iff.2 ⟨q, by simp [hq], hcomponents⟩
  rw [distinct_append, distinct_append, distinct_append, distinct_append, distinct, if_pos hseen]

/-- At a position of a list stands a path that is not the same as any before it, be it one seen
before the list. -/
structure IsFirst (seen l : List Path) (i : Nat) (p : Path) : Prop where
  get : l[i]? = some p
  ne : ∀ q ∈ seen ++ l.take i, q.components ≠ p.components

theorem isFirst_zero_iff {q : Path} :
    IsFirst seen (q :: l) 0 p ↔ q = p ∧ ∀ r ∈ seen, r.components ≠ p.components := by
  constructor
  · rintro ⟨hget, hne⟩
    exact ⟨by simpa using hget, by simpa using hne⟩
  · rintro ⟨rfl, hne⟩
    exact ⟨rfl, by simpa using hne⟩

theorem isFirst_succ_iff {q : Path} {i : Nat} :
    IsFirst seen (q :: l) (i + 1) p ↔ IsFirst seen l i p ∧ q.components ≠ p.components := by
  constructor
  · rintro ⟨hget, hne⟩
    have hne' : ∀ r, r = q ∨ r ∈ seen ++ l.take i → r.components ≠ p.components := by
      intro r hr
      exact hne r (by simpa [or_left_comm] using hr)
    exact ⟨⟨by simpa using hget, fun r hr => hne' r (.inr hr)⟩, hne' q (.inl rfl)⟩
  · rintro ⟨⟨hget, hne⟩, hq⟩
    refine ⟨by simpa using hget, fun r hr => ?_⟩
    have hr' : r = q ∨ r ∈ seen ++ l.take i := by simpa [or_left_comm] using hr
    rcases hr' with rfl | hr'
    · exact hq
    · exact hne r hr'

theorem isFirst_cons_iff {q : Path} {i : Nat} :
    IsFirst (q :: seen) l i p ↔ IsFirst seen l i p ∧ q.components ≠ p.components := by
  constructor
  · rintro ⟨hget, hne⟩
    obtain ⟨hq, hne⟩ := List.forall_mem_cons.1 hne
    exact ⟨⟨hget, hne⟩, hq⟩
  · rintro ⟨⟨hget, hne⟩, hq⟩
    exact ⟨hget, List.forall_mem_cons.2 ⟨hq, hne⟩⟩

/-- Kept are the first paths of the class, in their order. -/
theorem exists_firsts (hw : ∀ p q : Path, p.components = q.components → w p = w q)
    (seen l : List Path) :
    ∃ firsts : List Nat, firsts.Pairwise (· < ·) ∧
      (∀ i, i ∈ firsts ↔ ∃ p, IsFirst seen l i p ∧ w p) ∧
      (distinct seen (l.filter w)).map some = firsts.map (l[·]?) := by
  induction l generalizing seen with
  | nil =>
    refine ⟨[], .nil, fun i => ⟨fun h => absurd h List.not_mem_nil, ?_⟩, rfl⟩
    rintro ⟨p, ⟨hget, -⟩, -⟩
    cases hget
  | cons p l ih =>
    have hsucc (firsts : List Nat) :
        (firsts.map Nat.succ).map ((p :: l)[·]?) = firsts.map (l[·]?) := by simp
    have hascends {firsts : List Nat} (h : firsts.Pairwise (· < ·)) :
        (firsts.map Nat.succ).Pairwise (· < ·) :=
      List.pairwise_map.2 (h.imp Nat.succ_lt_succ)
    by_cases hkept : w p ∧ ∀ q ∈ seen, q.components ≠ p.components
    · obtain ⟨hp, hnew⟩ := hkept
      have hseen : ¬ seen.any p.sameAs := fun h => by
        obtain ⟨q, hq, hsame⟩ := any_sameAs_iff.1 h
        exact hnew q hq hsame
      obtain ⟨firsts, hascending, hmem, heq⟩ := ih (p :: seen)
      refine ⟨0 :: firsts.map Nat.succ, List.pairwise_cons.2 ⟨by simp, hascends hascending⟩,
        fun i => ?_, ?_⟩
      · cases i with
        | zero =>
          refine ⟨fun _ => ⟨p, isFirst_zero_iff.2 ⟨rfl, hnew⟩, hp⟩, fun _ => List.mem_cons_self⟩
        | succ i =>
          rw [List.mem_cons, List.mem_map_of_injective Nat.succ_injective, hmem i]
          simp only [isFirst_succ_iff, isFirst_cons_iff, Nat.add_eq_zero_iff, Nat.one_ne_zero,
            and_false, false_or]
      · rw [List.filter_cons_of_pos hp, distinct, if_neg hseen, List.map_cons, heq, List.map_cons,
          hsucc]
        rfl
    · obtain ⟨firsts, hascending, hmem, heq⟩ := ih seen
      refine ⟨firsts.map Nat.succ, hascends hascending, fun i => ?_, ?_⟩
      · cases i with
        | zero =>
          refine ⟨by simp, ?_⟩
          rintro ⟨q, hfirst, hq⟩
          obtain ⟨rfl, hnew⟩ := isFirst_zero_iff.1 hfirst
          exact absurd ⟨hq, hnew⟩ hkept
        | succ i =>
          rw [List.mem_map_of_injective Nat.succ_injective, hmem i]
          refine exists_congr fun q => and_congr_left fun hq => ?_
          rw [isFirst_succ_iff, iff_self_and]
          -- The path in front is not kept, so that it is not the same as one that is.
          intro hfirst hsame
          refine hkept ⟨(hw p q hsame).trans hq, fun r hr => ?_⟩
          rw [hsame]
          exact hfirst.ne r (List.mem_append_left _ hr)
      · rw [hsucc, ← heq]
        by_cases hp : w p
        · have hseen : seen.any p.sameAs := by
            by_contra hseen
            exact hkept ⟨hp, fun q hq hsame => hseen (any_sameAs_iff.2 ⟨q, hq, hsame⟩)⟩
          rw [List.filter_cons_of_pos hp, distinct, if_pos hseen]
        · rw [List.filter_cons_of_neg hp]

end Firsts

/-! ## The selection -/

section Selection

variable {sense : PathSense} {current buildDir root : Path} {files : List CompiledFile}
  {paths sources : List Path}

/-- The sources among paths: those under a root, the first of each, in their order. -/
structure IsSelection (root : Path) (paths sources : List Path) : Prop where
  exists_firsts : ∃ firsts : List Nat, firsts.Pairwise (· < ·) ∧
    (∀ i, i ∈ firsts ↔ ∃ p, IsFirst [] paths i p ∧ root.components <+: p.components) ∧
    sources.map some = firsts.map (paths[·]?)
  nodup : (sources.map Path.components).Nodup
  existsUnique : ∀ p ∈ paths, root.components <+: p.components →
    ∃! q, q ∈ sources ∧ q.components = p.components

theorem isSelection_distinct (root : Path) (paths : List Path) :
    IsSelection root paths (distinct [] (paths.filter (·.isWithin root))) := by
  have hwithin (p q : Path) (h : p.components = q.components) :
      p.isWithin root = q.isWithin root := by
    rw [Path.isWithin, Path.isWithin, h]
  have hnodup : ((distinct [] (paths.filter (·.isWithin root))).map Path.components).Nodup := by
    refine List.pairwise_map.2 ((pairwise_distinct _ _).imp fun {p q} h hsame => ?_)
    rw [Path.sameAs_iff.2 hsame.symm] at h
    cases h
  refine ⟨?_, hnodup, fun p hp hroot => ?_⟩
  · obtain ⟨firsts, hascending, hmem, heq⟩ := exists_firsts hwithin [] paths
    refine ⟨firsts, hascending, fun i => ?_, heq⟩
    rw [hmem i]
    exact exists_congr fun p => and_congr_right fun _ => Path.isWithin_iff
  · have hp' : p ∈ paths.filter (·.isWithin root) :=
      List.mem_filter.2 ⟨hp, Path.isWithin_iff.2 hroot⟩
    obtain ⟨q, hq, hsame⟩ :
        ∃ q ∈ distinct [] (paths.filter (·.isWithin root)), q.components = p.components :=
      exists_mem_distinct hp' (by simp)
    refine ⟨q, ⟨hq, hsame⟩, ?_⟩
    rintro r ⟨hr, hsame'⟩
    exact List.inj_on_of_nodup_map hnodup hr hq (hsame'.trans hsame.symm)

/-- Selected are the compiled files under the directory of the sources. -/
theorem exists_of_mem_select {p : Path} (h : p ∈ select sense buildDir files) :
    (∃ c ∈ files, sense.normalize c.located = p) ∧
      (sense.sourceRoot buildDir).components <+: p.components := by
  obtain ⟨hmem, hwithin⟩ := List.mem_filter.1 ((distinct_sublist _ _).subset h)
  obtain ⟨c, hc, rfl⟩ := List.mem_map.1 hmem
  exact ⟨⟨c, hc, (sense.compiledPath_eq c).symm⟩, Path.isWithin_iff.1 hwithin⟩

theorem isSelection_select (sense : PathSense) (buildDir : Path) (files : List CompiledFile) :
    IsSelection (sense.sourceRoot buildDir) (files.map fun c => sense.normalize c.located)
      (select sense buildDir files) := by
  have hpaths : (files.map fun c => sense.normalize c.located) = files.map sense.compiledPath :=
    List.map_congr_left fun c _ => (sense.compiledPath_eq c).symm
  rw [hpaths]
  exact isSelection_distinct _ _

theorem select_eq_nil_iff :
    select sense buildDir files = [] ↔
      ∀ c ∈ files,
        ¬ (sense.sourceRoot buildDir).components <+: (sense.normalize c.located).components := by
  constructor
  · intro hnil c hc hroot
    obtain ⟨q, ⟨hq, -⟩, -⟩ :=
      (isSelection_select sense buildDir files).existsUnique _ (List.mem_map_of_mem hc) hroot
    rw [hnil] at hq
    cases hq
  · intro hnone
    refine List.eq_nil_iff_forall_not_mem.2 fun p hp => ?_
    obtain ⟨⟨c, hc, rfl⟩, hroot⟩ := exists_of_mem_select hp
    exact hnone c hc hroot

/-- An entry for a path that was named before makes no difference. -/
theorem select_insert {before middle after : List CompiledFile} {c d : CompiledFile}
    (h : (sense.normalize d.located).components = (sense.normalize c.located).components) :
    select sense buildDir (before ++ c :: (middle ++ d :: after)) =
      select sense buildDir (before ++ c :: (middle ++ after)) := by
  let kept (l : List CompiledFile) : List Path :=
    (l.map sense.compiledPath).filter fun p => p.isWithin (sense.sourceRoot buildDir)
  have hsplit (l : List CompiledFile) : select sense buildDir (before ++ c :: (middle ++ l)) =
      distinct [] (kept (before ++ [c]) ++ (kept middle ++ kept l)) := by
    rw [List.append_cons, select]
    simp only [kept, List.map_append, List.filter_append]
  rw [hsplit, hsplit]
  have hsame : (sense.compiledPath d).components = (sense.compiledPath c).components := by
    rw [sense.compiledPath_eq, sense.compiledPath_eq, h]
  by_cases hwithin : (sense.compiledPath d).isWithin (sense.sourceRoot buildDir)
  · have hkept : kept (d :: after) = sense.compiledPath d :: kept after := by
      simp [kept, hwithin]
    rw [hkept]
    refine distinct_insert ⟨sense.compiledPath c, ?_, hsame.symm⟩
    rw [Path.isWithin_iff, hsame] at hwithin
    simp [kept, Path.isWithin_iff, hwithin]
  · have hkept : kept (d :: after) = kept after := by simp [kept, hwithin]
    rw [hkept]

theorem sourcesAmong_eq (sense : PathSense) (buildDir : Path) (files : List CompiledFile) :
    sourcesAmong sense buildDir files =
      if select sense buildDir files = [] then .error .nothingToLint
      else .ok (select sense buildDir files) := by
  unfold sourcesAmong
  split
  · next h => rw [if_pos h]
  · next h => rw [if_neg h]

theorem sources_of_readDatabase {read : CompileDatabase.Reader} {tree : FileTree}
    (h : readDatabase read tree buildDir = .ok files) :
    Lint.sources read tree buildDir = sourcesAmong (.ofTree tree) buildDir files := by
  rw [Lint.sources, h]
  rfl

/-- Which sources are selected for a build directory.  They are the normalized paths of the compiled
files that lie under the directory of the sources, which is `src` in the parent of the build
directory, normalized: the first of each, in their order, so that two entries for one existing file
give one source.  Components are compared, so that no source lies in a directory beside that of the
sources.  Every source is absolute and its own normal form.  An entry for a path that was named
before makes no difference.  Where no file lies under the directory of the sources, there is nothing
to lint, and only there. -/
theorem sourcesAmong_spec (hsense : sense.IsFileSystem current) (buildDir : Path)
    (files : List CompiledFile) :
    let path (c : CompiledFile) := sense.normalize c.located
    let root := sense.normalize ((buildDir.parent?.getD buildDir).join (Path.ofString "src"))
    ∃ sources, IsSelection root (files.map path) sources ∧
      sourcesAmong sense buildDir files =
        (if sources = [] then .error .nothingToLint else .ok sources) ∧
      (sources = [] ↔ ∀ c ∈ files, ¬ root.components <+: (path c).components) ∧
      (∀ c ∈ files, ∀ q, sense.canonical? c.located = some q →
        root.components <+: q.components → ∃! p, p ∈ sources ∧ p.components = q.components) ∧
      (∀ p ∈ sources, ∀ dir n m rest, root.components = dir ++ [.name n] →
        p.components = dir ++ .name m :: rest → m = n) ∧
      (∀ p ∈ sources, p.isAbsolute ∧ (sense.normalize p).components = p.components) ∧
      (∀ before c middle d after, files = before ++ c :: (middle ++ after) →
        (path d).components = (path c).components →
        sourcesAmong sense buildDir (before ++ c :: (middle ++ d :: after)) =
          sourcesAmong sense buildDir files) ∧
      (∀ read tree, sense = .ofTree tree → readDatabase read tree buildDir = .ok files →
        Lint.sources read tree buildDir = sourcesAmong sense buildDir files) := by
  intro path root
  have hselection : IsSelection root (files.map path) (select sense buildDir files) :=
    isSelection_select sense buildDir files
  refine ⟨select sense buildDir files, hselection, sourcesAmong_eq _ _ _, select_eq_nil_iff,
    ?_, ?_, ?_, ?_, ?_⟩
  · intro c hc q hq hroot
    have hpath : path c = q := PathSense.normalize_of_eq_some hq
    have hunique := hselection.existsUnique (path c) (List.mem_map_of_mem hc)
    rw [hpath] at hunique
    exact hunique hroot
  · intro p hp dir n m rest hroot hcomponents
    have hprefix : root.components <+: p.components := (exists_of_mem_select hp).2
    rw [hroot, hcomponents, List.prefix_append_right_inj, List.cons_prefix_cons] at hprefix
    exact (Path.Component.name.inj hprefix.1).symm
  · intro p hp
    obtain ⟨⟨c, -, rfl⟩, -⟩ := exists_of_mem_select hp
    exact ⟨hsense.isAbsolute_normalize _, hsense.components_normalize _⟩
  · rintro before c middle d after rfl hsame
    rw [sourcesAmong_eq, sourcesAmong_eq, select_insert hsame]
  · rintro read tree rfl hread
    exact sources_of_readDatabase hread

/-- A tree with a project below the current directory, a link into the project's sources, and other
sources beside these and in the current directory. -/
def linkedTree : FileTree where
  root := .dir [("w".toList, .dir [("src".toList, .dir [("o.c".toList, .file .empty false)]),
    ("link.c".toList, .link (Path.ofString "p/src/a.c")),
    ("p".toList, .dir [("src".toList, .dir [("a.c".toList, .file .empty false)]),
      ("src2".toList, .dir [("b.c".toList, .file .empty false)]), ("build".toList, .dir [])])])]
  current := .place ["w".toList]

theorem isFileSystem_linkedTree :
    (PathSense.ofTree linkedTree).IsFileSystem (FileTree.pathOf ["w".toList]) := by
  refine PathSense.isFileSystem_ofTree ?_ rfl rfl (by decide)
  simp only [linkedTree, Node.isSound_dir_cons, Node.isSound_dir_nil, Node.isSound_file,
    Node.isSound_link]
  decide

/-- Files of the tree: two sources of the project, each named twice, and one of each of the other
directories. -/
def linkedFiles : List CompiledFile :=
  [⟨Path.ofString "p/src/gone.c", none⟩, ⟨Path.ofString "src/o.c", none⟩,
    ⟨Path.ofString "link.c", none⟩,
    ⟨Path.ofString "../src/./a.c", some (Path.ofString "/w/p/build")⟩,
    ⟨Path.ofString "p/src2/b.c", none⟩, ⟨Path.ofString "/w//p/src/gone.c", none⟩]

theorem sourcesAmong_linkedFiles :
    let sense := PathSense.ofTree linkedTree
    let found := [Path.ofString "/w/p/src/gone.c", Path.ofString "/w/p/src/a.c"]
    sense.IsFileSystem (FileTree.pathOf ["w".toList]) ∧
      sourcesAmong sense (Path.ofString "p/build") linkedFiles = .ok found ∧
      IsSelection (Path.ofString "/w/p/src") (linkedFiles.map fun c => sense.normalize c.located)
        found ∧
      ∃! p, p ∈ found ∧ p.components = (Path.ofString "/w/p/src/a.c").components := by
  intro sense found
  have hfound : sourcesAmong sense (Path.ofString "p/build") linkedFiles = .ok found := by
    decide +kernel
  have hroot : sense.normalize (((Path.ofString "p/build").parent?.getD
      (Path.ofString "p/build")).join (Path.ofString "src")) = Path.ofString "/w/p/src" := by
    decide +kernel
  obtain ⟨sources, hselection, heq, -, hone, -⟩ :=
    sourcesAmong_spec isFileSystem_linkedTree (Path.ofString "p/build") linkedFiles
  rw [hroot] at hselection hone
  rw [hfound] at heq
  obtain rfl : found = sources := by
    split at heq
    · cases heq
    · exact Except.ok.inj heq
  refine ⟨isFileSystem_linkedTree, hfound, hselection, ?_⟩
  exact hone ⟨Path.ofString "link.c", none⟩ (by simp [linkedFiles]) _ (by decide +kernel)
    (Path.isWithin_iff.1 (by decide +kernel))

end Selection

end Lint
end Optable
