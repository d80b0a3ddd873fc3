import Optable.Proofs.Ascent
import Optable.Proofs.Selection
/-!
# How a build directory is spelled

The compile database is read through the path of the build directory, while the directory of the
sources is found from the parent of that path, which goes by its spelling.  So two spellings of one
build directory have the same database, and the same sources for every database if and only if they
have the same directory of sources.  The canonical spelling has the one that lies beside the build
directory, and so has every spelling whose parent leads to the directory above.
-/

namespace Optable

open FileTree

section Reading

variable {tree : FileTree} {p q : Path} {t : Text}

theorem readText_congr (h : tree.resolve .target p = tree.resolve .target q) :
    tree.readText p = tree.readText q := by
  unfold readText FileTree.read
  rw [h]

theorem exists_resolve_of_readText (h : tree.readText p = .ok t) :
    ∃ place, tree.resolve .target p = .ok place := by
  cases hresolve : tree.resolve .target p with
  | ok place => exact ⟨place, rfl⟩
  | error e =>
    rw [readText, FileTree.read, hresolve] at h
    cases h

end Reading

namespace Lint

variable {read : CompileDatabase.Reader} {tree : FileTree} {sense : PathSense}
  {current p q r buildDir : Path} {files : List CompiledFile}

theorem select_congr (h : (sense.sourceRoot p).components = (sense.sourceRoot q).components)
    (files : List CompiledFile) : select sense p files = select sense q files := by
  unfold select Path.isWithin
  rw [h]

theorem select_sourceRoot_eq_nil_iff (hsense : sense.IsFileSystem current) (p q : Path) :
    select sense q [⟨sense.sourceRoot p, none⟩] = [] ↔
      ¬ (sense.sourceRoot q).components <+: (sense.sourceRoot p).components := by
  have hroot : (sense.normalize (sense.sourceRoot p)).components =
      (sense.sourceRoot p).components := hsense.components_normalize _
  rw [select_eq_nil_iff, List.forall_mem_singleton, CompiledFile.located, hroot]

/-- Two build directories have the same sources for every database if and only if the directories of
these are the same. -/
theorem sourcesAmong_congr_iff (hsense : sense.IsFileSystem current) (p q : Path) :
    (∀ files, sourcesAmong sense p files = sourcesAmong sense q files) ↔
      (sense.sourceRoot p).components = (sense.sourceRoot q).components := by
  constructor
  · intro hsame
    -- A database that names one of the two directories as a file tells them apart.
    have hnil (files : List CompiledFile) :
        select sense p files = [] ↔ select sense q files = [] := by
      have h := hsame files
      rw [sourcesAmong_eq, sourcesAmong_eq] at h
      split at h <;> split at h <;> simp_all
    have hprefix {p q : Path} (h : ∀ files, select sense p files = [] ↔ select sense q files = []) :
        (sense.sourceRoot q).components <+: (sense.sourceRoot p).components := by
      by_contra hnot
      have hself := (h _).2 ((select_sourceRoot_eq_nil_iff hsense p q).2 hnot)
      exact (select_sourceRoot_eq_nil_iff hsense p p).1 hself (List.prefix_refl _)
    have hle := hprefix hnil
    have hge := hprefix fun files => (hnil files).symm
    exact hge.eq_of_length_le hle.length_le
  · intro hroot files
    rw [sourcesAmong_eq, sourcesAmong_eq, select_congr hroot]

/-- A build directory has the same database by its canonical path, unless that is too long. -/
theorem readDatabase_of_canonical (hsound : tree.root.IsSound)
    (hcanonical : tree.canonical p = .ok q) (hread : readDatabase read tree p = .ok files)
    (hfits : Text.byteSize (q.join CompileDatabase.fileName).text ≤ pathLimit) :
    readDatabase read tree q = .ok files := by
  obtain ⟨text, htext, hfiles⟩ := readDatabase_eq_ok_iff.1 hread
  refine readDatabase_eq_ok_iff.2 ⟨text, ?_, hfiles⟩
  obtain ⟨place, hplace⟩ := exists_resolve_of_readText htext
  obtain ⟨-, hlong, -⟩ := resolve_eq_ok_iff.1 hplace
  rcases resolve_join_canonical hsound hcanonical rfl hlong hfits with hsame | hmany
  · rw [← readText_congr hsame, htext]
  · rw [hmany] at hplace
    cases hplace

theorem sourceRoot_of_canonical
    (h : tree.canonical ((p.parent?.getD p).join (Path.ofString "src")) = .ok r) :
    (PathSense.ofTree tree).sourceRoot p = r :=
  PathSense.normalize_of_eq_some (PathSense.toOption_eq_some_iff.2 h)

/-- Which sources a build directory has, by whatever path it is given.  Its canonical path leads to
the same database, and the directory of the sources is then the one beside the build directory.  By
the path as it is given the sources are the same for every database if and only if the directory of
the sources is, which is found from the parent of the path by its spelling.  It is the one beside
the build directory if the parent leads to the directory above, as it does for every path that ends
in a name that is no link. -/
theorem sources_of_canonical {here : List Text} (hsound : tree.root.IsSound)
    (hcurrent : tree.current = .place here) (hdir : (tree.root.get? here).any Node.isDir)
    (hshort : ¬ exceeds here 1) (hcanonical : tree.canonical p = .ok q)
    (hread : readDatabase read tree p = .ok files)
    (hfits : Text.byteSize (q.join CompileDatabase.fileName).text ≤ pathLimit) :
    let sense := PathSense.ofTree tree
    let besides := p.join (Path.ofString "../src")
    let parent := p.parent?.getD p
    sense.normalize p = q ∧ readDatabase read tree q = .ok files ∧
      (∀ r, tree.canonical besides = .ok r → sense.sourceRoot q = r) ∧
      ((∀ compiled, sourcesAmong sense p compiled = sourcesAmong sense q compiled) ↔
        (sense.sourceRoot p).components = (sense.sourceRoot q).components) ∧
      (LeadsUp tree p → ∀ r, tree.canonical besides = .ok r →
        sense.sourceRoot p = r ∧ sources read tree p = sources read tree q) ∧
      (∀ n names node, p.name? = some n →
        tree.follow .entry (parent.join ⟨n⟩) = .ok (.found names node) →
        (∀ target, node ≠ .link target) → LeadsUp tree p) := by
  intro sense besides parent
  have hsense : sense.IsFileSystem (pathOf here) :=
    PathSense.isFileSystem_ofTree hsound hcurrent hdir hshort
  have hname : IsName "src".toList := by decide
  have hread' := readDatabase_of_canonical hsound hcanonical hread hfits
  have hbeside (r : Path) (hr : tree.canonical besides = .ok r) : sense.sourceRoot q = r :=
    sourceRoot_of_canonical (canonical_parent_join_canonical hsound hname hcanonical hr)
  refine ⟨PathSense.normalize_of_eq_some (PathSense.toOption_eq_some_iff.2 hcanonical), hread',
    hbeside, sourcesAmong_congr_iff hsense p q, fun hup r hr => ?_,
    fun n names node hn hentry hlink => ?_⟩
  · have hroot : sense.sourceRoot p = r := sourceRoot_of_canonical
      (canonical_parent_join_of_leadsUp (text_ne_nil_of_canonical hcanonical) hname hup hr)
    refine ⟨hroot, ?_⟩
    rw [sources_of_readDatabase hread, sources_of_readDatabase hread']
    refine (sourcesAmong_congr_iff hsense p q).2 ?_ files
    rw [hroot, hbeside r hr]
  · obtain ⟨text, htext, -⟩ := readDatabase_eq_ok_iff.1 hread
    obtain ⟨place, hplace⟩ := exists_resolve_of_readText htext
    have hhere : tree.currentPath?.isSome := by
      rw [currentPath?, hcurrent]
      rfl
    exact leadsUp_of_name? hsound hn (.inr hhere) hlink hentry rfl (List.cons_ne_nil _ _)
      (resolve_eq_ok_iff.1 hplace).2.2

theorem readDatabase_of_read {t : Text}
    (hbytes : tree.read (buildDir.join CompileDatabase.fileName) = .ok (Text.toBytes t))
    (hfiles : read t = .ok files) : readDatabase read tree buildDir = .ok files := by
  refine readDatabase_eq_ok_iff.2 ⟨t, ?_, hfiles⟩
  rw [readText, hbytes]
  simp [bind, Except.bind, Text.ofBytes?_toBytes, pure, Except.pure]

/-- The database of the tree below, with one source. -/
def nestedDatabase : Text := "[[\"/p/src/a.c\"]]".toList

/-- A tree whose build directory holds a directory. -/
def nestedTree : FileTree where
  root := .dir [("p".toList, .dir
    [("build".toList, .dir
      [("compile_commands.json".toList, .file (Text.toBytes nestedDatabase) false),
       ("sub".toList, .dir [])]),
     ("src".toList, .dir [("a.c".toList, .file .empty false)])])]
  current := .place ["p".toList]

theorem isSound_nestedTree : nestedTree.root.IsSound := by
  simp only [nestedTree, Node.isSound_dir_cons, Node.isSound_dir_nil, Node.isSound_file]
  decide

theorem read_nestedDatabase :
    CompileDatabase.read nestedDatabase = .ok [⟨Path.ofString "/p/src/a.c", none⟩] := by
  have h : (CompileDatabase.read nestedDatabase).toOption =
      some [⟨Path.ofString "/p/src/a.c", none⟩] := by decide +kernel
  exact PathSense.toOption_eq_some_iff.1 h

theorem readDatabase_nestedTree
    (hbytes : nestedTree.read (p.join CompileDatabase.fileName) =
      .ok (Text.toBytes nestedDatabase)) :
    readDatabase CompileDatabase.read nestedTree p = .ok [⟨Path.ofString "/p/src/a.c", none⟩] :=
  readDatabase_of_read hbytes read_nestedDatabase

/-- Behind a dot the build directory is given with its sources, and with none where a pair of dots
leads back to it. -/
theorem sources_nestedTree :
    nestedTree.canonical (.ofString "build/./") = .ok (.ofString "/p/build") ∧
      nestedTree.canonical (.ofString "build/sub/..") = .ok (.ofString "/p/build") ∧
      sources CompileDatabase.read nestedTree (.ofString "/p/build") =
        .ok [.ofString "/p/src/a.c"] ∧
      sources CompileDatabase.read nestedTree (.ofString "build/./") =
        .ok [.ofString "/p/src/a.c"] ∧
      sources CompileDatabase.read nestedTree (.ofString "build/sub/..") =
        .error .nothingToLint := by
  have hcurrent : nestedTree.current = .place ["p".toList] := rfl
  have hdir : (nestedTree.root.get? ["p".toList]).any Node.isDir := rfl
  have hshort : ¬ exceeds ["p".toList] 1 := by decide
  have hfits : Text.byteSize ((Path.ofString "/p/build").join CompileDatabase.fileName).text ≤
      pathLimit := by decide
  have hstays : nestedTree.canonical (.ofString "build/./") = .ok (.ofString "/p/build") := rfl
  have hback : nestedTree.canonical (.ofString "build/sub/..") = .ok (.ofString "/p/build") := by
    rfl
  have hreadStays : readDatabase CompileDatabase.read nestedTree (.ofString "build/./") = _ :=
    readDatabase_nestedTree rfl
  have hreadBack : readDatabase CompileDatabase.read nestedTree (.ofString "build/sub/..") = _ :=
    readDatabase_nestedTree rfl
  obtain ⟨-, hread, -, -, hsame, hup⟩ :=
    sources_of_canonical isSound_nestedTree hcurrent hdir hshort hstays hreadStays hfits
  have hleads : LeadsUp nestedTree (.ofString "build/./") :=
    hup "build".toList ["p".toList, "build".toList] (.dir _) (by decide) rfl fun _ =>
      Node.noConfusion
  have hbeside := hsame hleads (.ofString "/p/src") rfl
  have hsources : sources CompileDatabase.read nestedTree (.ofString "/p/build") =
      .ok [.ofString "/p/src/a.c"] := by
    rw [sources_of_readDatabase hread]
    rfl
  refine ⟨hstays, hback, hsources, hbeside.2.trans hsources, ?_⟩
  rw [sources_of_readDatabase hreadBack]
  rfl

end Lint

end Optable
