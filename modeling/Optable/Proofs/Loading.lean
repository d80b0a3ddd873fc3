import Optable.Proofs.Comparison
import Optable.Proofs.Discovery
/-!
# Loading the sources

Loading finds every source in the two directories of the usual layout and nothing else, in the
order of their names, whatever the order in which the directories list them and however the root is
spelled.
-/

namespace Optable.Sources

open FileTree

variable {find : Finder} {tree tree' : FileTree} {root p q : Path} {names : List Text}

/-! ## Directories in another order -/

/-- A tree that lists its directories in another order than a sound one is sound. -/
theorem isSound_of_twins {root root' : Node} (hsound : root.IsSound)
    (htwins : ∀ place, Node.Twins (root.get? place) (root'.get? place)) : root'.IsSound := by
  have hroot := htwins []
  rw [Node.get?_nil, Node.get?_nil] at hroot
  induction hsound generalizing root' with
  | @dir entries hnames hnodup hentries ih =>
    cases hroot with
    | leaf hleaf => exact absurd rfl hleaf
    | @dir _ entries' hperm =>
      have hnodup' := hperm.nodup_iff.1 hnodup
      -- An entry has the same below it as the one with its name.
      have hentry : ∀ e' ∈ entries', ∃ e ∈ entries, e.1 = e'.1 ∧
          ∀ place, Node.Twins (e.2.get? place) (e'.2.get? place) := by
        intro e' he'
        obtain ⟨e, he, hname⟩ := List.mem_map.1 (hperm.mem_iff.2 (List.mem_map_of_mem he'))
        refine ⟨e, he, hname, fun place => ?_⟩
        have hbelow := htwins (e'.1 :: place)
        rwa [Node.get?_dir_cons, Node.get?_dir_cons,
          (Node.lookup_eq_some_iff_mem hnodup').2 he', ← hname,
          (Node.lookup_eq_some_iff_mem hnodup).2 he] at hbelow
      refine .dir (fun e' he' => ?_) hnodup' fun e' he' => ?_
      · obtain ⟨e, he, hname, -⟩ := hentry e' he'
        exact hname ▸ hnames e he
      · obtain ⟨e, he, -, hbelow⟩ := hentry e' he'
        exact ih e he hbelow (by simpa using hbelow [])
  | _ =>
    cases hroot
    constructor

section Relisting

variable (hfind : find.IsExact) (hsound : tree.root.IsSound) (h : Relists tree tree')
include h

theorem files_eq_of_relists (q : Path) : files tree' q = files tree q := by
  have hnames (p : Path) : sourceNames tree' p = sourceNames tree p := by
    have hfile : tree'.isFile = tree.isFile := funext fun p => h.isFile_eq p
    unfold sourceNames
    rw [hfile]
    exact mergeSort_precedes_eq ((h.names_perm p).filter _).symm
  simp only [files, sourcePaths, hnames]

include hfind hsound

theorem load_eq_of_relists (root : Path) :
    load find tree' .standard root = load find tree .standard root := by
  by_cases hdir : tree.isDir (root.join Layout.standard.builtinDir)
  · have hdir' := hdir
    rw [← h.isDir_eq] at hdir'
    cases hroot : tree.canonical root with
    | error e =>
      unfold load
      rw [if_pos hdir, if_pos hdir', h.canonical_eq, hroot]
      rfl
    | ok q =>
      have hread : readFile tree' = readFile tree := by
        funext p
        unfold readFile
        rw [h.readText_eq]
      rw [load_of_canonical hfind hsound hdir hroot,
        load_of_canonical hfind (isSound_of_twins hsound h.twins) hdir'
          (h.canonical_eq root ▸ hroot), files_eq_of_relists h, hread]
  · unfold load
    rw [if_neg hdir, if_neg (by rwa [h.isDir_eq])]
    rfl

end Relisting

theorem not_isDir_of_long (h : pathLimit < Text.byteSize p.text) : ¬ tree.isDir p := by
  rw [isDir, node?, resolve, if_pos h]
  split <;> simp [Except.toOption]

/-! ## What is loaded -/

/-- Nothing is loaded where the path from the root of the tree to the grouped sources is too
long. -/
theorem load_of_long (hfind : find.IsExact) (hsound : tree.root.IsSound)
    (hdir : tree.isDir (root.join Layout.standard.builtinDir)) (hroot : tree.canonical root = .ok q)
    (hlong : pathLimit < Text.byteSize (q.join Layout.standard.builtinDir).text) :
    load find tree .standard root = .ok ⟨q, [], []⟩ := by
  obtain ⟨slash, -, htext⟩ := Path.exists_text_join (q.join Layout.standard.builtinDir)
    (show Layout.standard.individualDir.isAbsolute = false by decide)
  have hbelow : pathLimit < Text.byteSize
      ((q.join Layout.standard.builtinDir).join Layout.standard.individualDir).text := by
    refine hlong.trans_le (Text.byteSize_le_of_isPrefix ?_)
    rw [htext, List.append_assoc]
    exact List.prefix_append _ _
  have hfiles : files tree q = ([], []) := by
    simp only [files, sourcePaths, sourceNames_of_not_isDir (not_isDir_of_long hlong),
      sourceNames_of_not_isDir (not_isDir_of_long hbelow), List.map_nil]
  rw [load_of_canonical hfind hsound hdir hroot, hfiles]
  rfl

/-- No pattern for the sources of a directory is refused. -/
theorem load_ne_pattern (hfind : find.IsExact) (hsound : tree.root.IsSound) (root : Path)
    (e : Text) : load find tree .standard root ≠ .error (.pattern e) := by
  intro h
  by_cases hdir : tree.isDir (root.join Layout.standard.builtinDir)
  · cases hroot : tree.canonical root with
    | error e =>
      unfold load at h
      rw [if_pos hdir, hroot] at h
      cases h
    | ok q =>
      have hloaded := isLoaded_load hfind hsound hdir hroot
      rw [h] at hloaded
      cases hloaded
  · unfold load at h
    rw [if_neg hdir] at h
    cases h

/-- A directory with one grouped source. -/
def oneSource : Node :=
  .dir [("src".toList, .dir [("builtin".toList, .dir [("a.c".toList, .file .empty false)])])]

theorem isSound_oneSource : oneSource.IsSound := by
  simp only [oneSource, Node.isSound_dir_cons, Node.isSound_dir_nil, Node.isSound_file]
  decide

/-- A directory of the given names, one in the other, with a node in the last one. -/
def nest (names : List Text) (node : Node) : Node :=
  names.foldr (fun name node => .dir [(name, node)]) node

theorem get?_nest (names : List Text) (node : Node) : (nest names node).get? names = some node := by
  induction names with
  | nil => rfl
  | cons name names ih =>
    show (Node.dir [(name, nest names node)]).get? (name :: names) = _
    rw [Node.get?_dir_cons, List.lookup_cons_self, Option.bind_some, ih]

theorem isSound_nest {node : Node} (hnames : ∀ name ∈ names, IsName name) (h : node.IsSound) :
    (nest names node).IsSound := by
  induction names with
  | nil => exact h
  | cons name names ih =>
    obtain ⟨hname, hnames⟩ := List.forall_mem_cons.1 hnames
    exact Node.isSound_dir_cons.2 ⟨⟨hname, List.not_mem_nil⟩, ih hnames, Node.isSound_dir_nil⟩

/-- Names with a path of 4088 bytes. -/
def deepNames : List Text := List.replicate 28 (List.replicate 145 'd')

/-- A tree whose current directory holds a source and lies so deep that the path of the source is
too long. -/
def deepTree : FileTree where
  root := nest deepNames oneSource
  current := .place deepNames

theorem isSound_deepTree : deepTree.root.IsSound := by
  refine isSound_nest (fun name hname => ?_) isSound_oneSource
  obtain rfl := List.eq_of_mem_replicate hname
  decide +kernel

theorem canonical_deepTree : deepTree.canonical ⟨['.']⟩ = .ok (pathOf deepNames) := by
  refine canonical_eq_ok_iff.2 ⟨by decide, .inr rfl, deepNames, oneSource, ?_, rfl⟩
  show walk deepTree.root .spelling linkLimit deepNames [['.']] = _
  have hget : deepTree.root.get? deepNames = some oneSource := get?_nest deepNames oneSource
  rw [walk_cons, walkSegment, hget]
  show walk deepTree.root .spelling linkLimit deepNames [] = _
  rw [walk_nil, hget]

set_option maxRecDepth 8000 in
theorem isDir_deepTree : deepTree.isDir ((Path.mk ['.']).join Layout.standard.builtinDir) := by
  rfl

set_option maxRecDepth 8000 in
theorem isFile_deepTree :
    deepTree.isFile (((Path.mk ['.']).join Layout.standard.builtinDir).join ⟨"a.c".toList⟩) := by
  rfl

/-- A tree with sources, and with other things among them.  The list of entries is that of the
directory of the grouped sources. -/
def bracketTree (entries : List (Text × Node)) : FileTree where
  root := .dir [("a[b]*".toList, .dir [("src".toList, .dir [("builtin".toList, .dir entries)])])]
  current := .place []

def bracketEntries : List (Text × Node) :=
  [("b.c".toList, .file .empty false), ("a.c".toList, .link (Path.ofString "../builtin/b.c")),
    ("d.c".toList, .dir []), ("n.h".toList, .file .empty false),
    ("individual".toList, .dir [("z.c".toList, .file .empty false)])]

def bracketSet : SourceSet where
  root := Path.ofString "/a[b]*"
  grouped := [⟨Path.ofString "/a[b]*/src/builtin/a.c", []⟩,
    ⟨Path.ofString "/a[b]*/src/builtin/b.c", []⟩]
  individual := [⟨Path.ofString "/a[b]*/src/builtin/individual/z.c", []⟩]

end Optable.Sources
