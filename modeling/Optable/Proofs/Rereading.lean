import Optable.Proofs.Discovery
import Optable.Proofs.Landing
import Optable.Proofs.Policy
import Optable.Proofs.Writing
/-!
# Sources after writing

A file that was not a source before is one after a run only if it was written by the run, or if it
lay at the end of a path that the run completed by making directories.  Both can be told from the
tree before the run, by where paths land.  So it can be told from that tree whether the run leaves
alone what a generator takes from the sources.
-/

namespace Optable

open FileTree CommandLine

/-- Whether two paths land at one place. -/
def FileTree.Meets (tree : FileTree) (p q : Path) : Prop :=
  ∃ names, tree.landing p = some names ∧ tree.landing q = some names

theorem CommandLine.Settled.landing_eq {before after : FileTree} {artifacts : List Artifact}
    (h : Settled before artifacts after) (p : Path) : after.landing p = before.landing p := by
  refine landing_congr (funext fun place => Option.ext fun target => ?_) h.keeps.current p
  rw [linkAt?_eq_some_iff, linkAt?_eq_some_iff]
  constructor
  · intro hlink
    rcases h.adds place _ hlink Bool.false_ne_true with hold | ⟨_, -, -, hholds⟩
    · exact hold
    · cases hholds
  · intro hlink
    obtain ⟨node, hnode, halike⟩ := h.keeps.root place _ hlink
    cases halike
    exact hnode

namespace Sources

/-- The directory of the sources of a kind, under a root. -/
def directory (root : Path) : SourceKind → Path
  | .grouped => root.join Layout.standard.builtinDir
  | .individual => (root.join Layout.standard.builtinDir).join Layout.standard.individualDir

/-- The paths of sources of a kind, whether there are files or not. -/
def IsCandidate (root : Path) (kind : SourceKind) (p : Path) : Prop :=
  ∃ name, IsName name ∧ extension <:+ name ∧ p = (directory root kind).join ⟨name⟩

/-- What is taken from the file at a path, which is nothing where there is no file. -/
def gathered {β : Type} (tree : FileTree) (f : SourceFile → List β) (p : Path) : List β :=
  if tree.isFile p then (readFile tree p).toOption.toList.flatMap f else []

variable {β : Type} {find : Finder} {tree before after : FileTree} {root dir p : Path}
  {kind : SourceKind} {names : List Text} {set : SourceSet} {artifacts : List Artifact}
  {files : List SourceFile} {file : SourceFile} {f : SourceFile → List β}

/-! ## What is taken from the sources of a tree -/

theorem gathered_of_readFile (hfile : tree.isFile p) (h : readFile tree p = .ok file)
    (f : SourceFile → List β) : gathered tree f p = f file := by
  rw [gathered, if_pos hfile, h]
  exact List.flatMap_singleton f file

theorem flatMap_eq_gathered {paths : List Path} (hpaths : ∀ p ∈ paths, tree.isFile p)
    (h : List.Forall₂ (fun p file => readFile tree p = .ok file) paths files)
    (f : SourceFile → List β) : files.flatMap f = paths.flatMap (gathered tree f) := by
  induction h with
  | nil => rfl
  | cons hread _ ih =>
    obtain ⟨hfile, hpaths⟩ := List.forall_mem_cons.1 hpaths
    rw [List.flatMap_cons, List.flatMap_cons, ih hpaths, gathered_of_readFile hfile hread]

theorem forall₂_of_mapM_eq_ok {paths : List Path} (h : paths.mapM (readFile tree) = .ok files) :
    List.Forall₂ (fun p file => readFile tree p = .ok file) paths files := by
  rcases mapM_cases (readFile tree) paths with ⟨out, hout, hall⟩ | ⟨_, _, _, e, -, -, -, herror⟩
  · obtain rfl := Except.ok.inj (hout.symm.trans h)
    exact hall
  · cases herror.symm.trans h

theorem exists_readFile_of_mem {paths : List Path}
    (h : List.Forall₂ (fun p file => readFile tree p = .ok file) paths files) (hp : p ∈ paths) :
    ∃ file, readFile tree p = .ok file := by
  induction h with
  | nil => cases hp
  | cons hread _ ih =>
    rcases List.mem_cons.1 hp with rfl | hp
    · exact ⟨_, hread⟩
    · exact ih hp

theorem exists_mapM_eq_ok {paths : List Path}
    (h : ∀ p ∈ paths, ∃ file, readFile tree p = .ok file) :
    ∃ files, paths.mapM (readFile tree) = .ok files := by
  rcases mapM_cases (readFile tree) paths with ⟨out, hout, -⟩ | ⟨_, p, _, e, rfl, -, he, -⟩
  · exact ⟨out, hout⟩
  · obtain ⟨file, hfile⟩ := h p (by simp)
    cases hfile.symm.trans he

theorem exists_directory_eq (hsound : tree.root.IsSound) (h : tree.canonical p = .ok root)
    (kind : SourceKind) :
    ∃ names, (∀ name ∈ names, IsName name) ∧ directory root kind = pathOf names := by
  obtain ⟨names, -, hnames, hbuiltin, hindividual⟩ := exists_names_of_standard hsound h
  cases kind with
  | grouped => exact ⟨names, (List.forall_mem_append.1 hnames).1, hbuiltin⟩
  | individual => exact ⟨_, hnames, hindividual⟩

theorem mem_sourcePaths_iff (hsound : tree.root.IsSound) (hnames : ∀ name ∈ names, IsName name)
    (hdir : directory root kind = pathOf names) :
    p ∈ sourcePaths tree (directory root kind) ↔ IsCandidate root kind p ∧ tree.isFile p := by
  constructor
  · intro hp
    obtain ⟨name, hname, rfl⟩ := List.mem_map.1 hp
    obtain ⟨hmem, hextension, hfile⟩ := mem_sourceNames_iff.1 hname
    exact ⟨⟨name, isName_of_mem_names hsound hmem, hextension, rfl⟩, hfile⟩
  · rintro ⟨⟨name, hname, hextension, rfl⟩, hfile⟩
    rw [hdir] at hfile ⊢
    have hmem := mem_names_of_occupied hnames hname.ofSegment?_eq hname.slash_notMem
      (occupied_of_isFile hfile)
    exact List.mem_map.2 ⟨name, mem_sourceNames_iff.2 ⟨hmem, hextension, hfile⟩, rfl⟩

/-! ## What is taken after writing -/

theorem isFile_of_keeps (hkeeps : Keeps before after) (h : before.isFile p) : after.isFile p := by
  obtain ⟨place, bytes, executable, hfound⟩ := isFile_iff.1 h
  obtain ⟨node, hnode, halike⟩ := exists_resolve_of_keeps hkeeps hfound
  cases halike
  exact isFile_iff.2 ⟨_, _, _, hnode⟩

/-- The former sources are those of the sources that were files. -/
theorem sourcePaths_eq_filter (hsound : before.root.IsSound) (hsound' : after.root.IsSound)
    (hkeeps : Keeps before after) (hnames : ∀ name ∈ names, IsName name) :
    sourcePaths before (pathOf names) =
      (sourcePaths after (pathOf names)).filter before.isFile := by
  let dir := pathOf names
  have hsorted (tree : FileTree) :
      (sourceNames tree dir).Pairwise fun a b => !Text.precedes b a := pairwise_mergeSort_precedes _
  have hkept := (hsorted after).filter fun name => before.isFile (dir.join ⟨name⟩)
  have hmem (name : Text) : name ∈ sourceNames before dir ↔
      name ∈ (sourceNames after dir).filter fun name => before.isFile (dir.join ⟨name⟩) := by
    rw [List.mem_filter, mem_sourceNames_iff, mem_sourceNames_iff]
    constructor
    · rintro ⟨hname, hextension, hfile⟩
      have hvalid := isName_of_mem_names hsound hname
      have hafter := isFile_of_keeps hkeeps hfile
      exact ⟨⟨mem_names_of_occupied hnames hvalid.ofSegment?_eq hvalid.slash_notMem
        (occupied_of_isFile hafter), hextension, hafter⟩, hfile⟩
    · rintro ⟨⟨hname, hextension, -⟩, hfile⟩
      have hvalid := isName_of_mem_names hsound' hname
      exact ⟨mem_names_of_occupied hnames hvalid.ofSegment?_eq hvalid.slash_notMem
        (occupied_of_isFile hfile), hextension, hfile⟩
  have hperm := (List.perm_ext_iff_of_nodup (nodup_sourceNames hsound dir)
    ((nodup_sourceNames hsound' dir).filter _)).2 hmem
  have heq := mergeSort_precedes_eq hperm
  rw [List.mergeSort_of_pairwise (hsorted before), List.mergeSort_of_pairwise hkept] at heq
  rw [sourcePaths, sourcePaths, heq, List.filter_map]
  rfl

theorem flatMap_filter_eq {α : Type} {l : List α} {q : α → Bool} {g : α → List β}
    (h : ∀ a, q a = false → g a = []) : (l.filter q).flatMap g = l.flatMap g := by
  induction l with
  | nil => rfl
  | cons a l ih =>
    cases hq : q a with
    | true => rw [List.filter_cons_of_pos hq, List.flatMap_cons, List.flatMap_cons, ih]
    | false =>
      rw [List.filter_cons_of_neg (by simp [hq]), List.flatMap_cons, h a hq, ih, List.nil_append]

theorem readFile_congr (h : after.resolve .target p = before.resolve .target p) :
    readFile after p = readFile before p := by
  unfold readFile readText FileTree.read
  rw [h]

/-- A source that is there after writing was there before, unchanged, or is an artifact. -/
theorem readFile_of_settled (hsettled : Settled before artifacts after)
    (hstays : ∀ place, before.landing p = some place → (before.root.get? place).any Node.isFile →
      before.isFile p) (hfile : after.isFile p) :
    (before.isFile p ∧ readFile after p = readFile before p) ∨
      ∃ artifact ∈ artifacts, before.Meets p artifact.path ∧
        readFile after p = .ok ⟨p, artifact.contents⟩ := by
  obtain ⟨place, bytes, executable, hfound⟩ := isFile_iff.1 hfile
  have hnode : after.root.get? place = some (.file bytes executable) := isIn_of_resolve hfound
  have hlanding {q : Path} {aim : Aim} {node : Node} (haim : aim ≠ .entry)
      (h : after.resolve aim q = .ok (.found place node)) : before.landing q = some place :=
    (hsettled.landing_eq q).symm.trans (landing_of_resolve h haim)
  have hhere := hlanding (by decide) hfound
  rcases hsettled.adds place _ hnode Bool.false_ne_true with hold | ⟨artifact, hmem, hgoes, hholds⟩
  · have hbefore : before.isFile p := hstays place hhere (by rw [hold]; rfl)
    refine .inl ⟨hbefore, readFile_congr ?_⟩
    -- Before the run the path led to the place where it lands, too.
    obtain ⟨former, bytes', executable', hformer⟩ := isFile_iff.1 hbefore
    obtain rfl : former = place :=
      Option.some.inj ((landing_of_resolve hformer (by decide)).symm.trans hhere)
    have hsame := Option.some.inj (hold.symm.trans (isIn_of_resolve hformer))
    rw [hfound, hformer, hsame]
  · obtain ⟨node, hreceived, -⟩ := hgoes.accepts
    obtain rfl : bytes = Text.toBytes artifact.contents := hholds
    refine .inr ⟨artifact, hmem, ⟨place, hhere, hlanding (by decide) hreceived⟩, ?_⟩
    refine readFile_eq_ok_iff.2 ⟨rfl, ?_⟩
    simp [readText, FileTree.read, hfound, bind, Except.bind, Text.ofBytes?_toBytes, pure,
      Except.pure]

end Sources

namespace Generator

open Sources

/-- What is written leaves alone what a generator takes from the sources of the tree before it.  No
file becomes a source by the directories that are made.  Where something is written to the path of a
source, it has the doc blocks that were there, which are none where there was no file.  For the list
of includes and the header there was a file, too, and its declarations remain. -/
structure Spares (g : Generator) (tree : FileTree) (root : Path) (artifacts : List Artifact) :
    Prop where
  stays : ∀ kind p, IsCandidate root kind p → ∀ place, tree.landing p = some place →
    (tree.root.get? place).any Node.isFile → tree.isFile p
  blocks_eq : ∀ kind p, IsCandidate root kind p → ∀ artifact ∈ artifacts,
    tree.Meets p artifact.path →
    SourceFile.blocks ⟨p, artifact.contents⟩ = gathered tree SourceFile.blocks p
  declarations_eq : g = .builtins → ∀ kind p, IsCandidate root kind p → ∀ artifact ∈ artifacts,
    tree.Meets p artifact.path → tree.isFile p ∧
    SourceFile.declarations ⟨p, artifact.contents⟩ kind =
      gathered tree (SourceFile.declarations · kind) p

variable {g : Generator} {find : Finder} {before after : FileTree} {root p : Path}
  {kind : SourceKind} {set again : SourceSet} {artifacts : List Artifact} {files : List SourceFile}

section Plain

variable {tree : FileTree} {names place : List Text} {entries : List (Text × Node)}
  (hnames : ∀ name ∈ names, IsName name)
  (hdir : tree.root.get? (names ++ builtinNames) = some (.dir entries))
  (hlinks : (Node.dir entries).AllLinks fun _ => False)
include hnames hdir hlinks

/-- Where no link leads out of the directories of the sources, a source lies where its path says. -/
theorem exists_of_landing (hp : IsCandidate (pathOf names) kind p)
    (h : tree.landing p = some place) :
    p = pathOf place ∧ (∀ name ∈ place, IsName name) ∧ names ++ builtinNames <+: place ∧
      Text.byteSize p.text ≤ pathLimit := by
  obtain ⟨name, hname, -, rfl⟩ := hp
  obtain ⟨below, hbelow, hpath⟩ : ∃ below, (∀ n ∈ names ++ builtinNames ++ below, IsName n) ∧
      (directory (pathOf names) kind).join ⟨name⟩ = pathOf (names ++ builtinNames ++ below) := by
    have hbuiltin : ∀ n ∈ names ++ builtinNames, IsName n :=
      List.forall_mem_append.2 ⟨hnames, by decide⟩
    have hindividual : ∀ n ∈ names ++ builtinNames ++ ["individual".toList], IsName n :=
      List.forall_mem_append.2 ⟨hbuiltin, by decide⟩
    cases kind with
    | grouped =>
      refine ⟨[name], List.forall_mem_append.2 ⟨hbuiltin, by simpa using hname⟩, ?_⟩
      rw [directory, join_builtinDir hnames, join_pathOf_name hbuiltin hname]
    | individual =>
      refine ⟨["individual".toList, name], ?_, ?_⟩
      · rw [List.append_cons]
        exact List.forall_mem_append.2 ⟨hindividual, by simpa using hname⟩
      · rw [directory, join_builtinDir hnames, join_individualDir hbuiltin,
          join_pathOf_name hindividual hname, List.append_assoc]
        rfl
  have hunlinked : ∀ front rest, names ++ builtinNames ++ below = front ++ rest → front ≠ [] →
      linkAt? tree.root front = none := by
    intro front rest heq _
    refine Option.eq_none_iff_forall_ne_some.2 fun target htarget => ?_
    rw [linkAt?_eq_some_iff] at htarget
    -- Above the directory of the sources there are directories, and below it there is no link.
    rcases List.prefix_or_prefix_of_prefix (heq ▸ List.prefix_append front rest)
      (List.prefix_append (names ++ builtinNames) below) with ⟨middle, hmiddle⟩ | ⟨middle, rfl⟩
    · by_cases hnil : middle = []
      · rw [hnil, List.append_nil] at hmiddle
        cases (hmiddle ▸ htarget).symm.trans hdir
      · rw [← hmiddle] at hdir
        obtain ⟨above, habove⟩ := Node.exists_dir_of_get?_append hdir hnil
        cases htarget.symm.trans habove
    · rw [Node.get?_append, hdir] at htarget
      exact hlinks middle target htarget
  rw [hpath] at h ⊢
  obtain ⟨rfl, hshort⟩ :=
    eq_of_landing_pathOf hbelow (by simp [builtinNames]) hunlinked h
  exact ⟨rfl, hbelow, List.prefix_append _ _, hshort⟩

theorem isFile_of_landing (hp : IsCandidate (pathOf names) kind p)
    (h : tree.landing p = some place) (hfile : (tree.root.get? place).any Node.isFile) :
    tree.isFile p := by
  obtain ⟨rfl, hplace, hbelow, hshort⟩ := exists_of_landing hnames hdir hlinks hp h
  cases hnode : tree.root.get? place with
  | none => simp [hnode] at hfile
  | some node =>
    obtain ⟨bytes, executable, rfl⟩ := Node.isFile_iff.1 (by simpa [hnode] using hfile)
    have hnil : place ≠ [] := by
      rintro rfl
      simp [builtinNames] at hbelow
    exact isFile_iff.2 ⟨place, bytes, executable,
      resolve_pathOf hplace hnil hshort hnode fun _ => Node.noConfusion⟩

/-- Outputs outside of the directories of the sources leave these alone. -/
theorem spares_of_apart (hapart : ∀ artifact ∈ artifacts, ∀ place,
    tree.landing artifact.path = some place → ¬ names ++ builtinNames <+: place) :
    g.Spares tree (pathOf names) artifacts := by
  have hnever {kind : SourceKind} {p : Path} (hp : IsCandidate (pathOf names) kind p) :
      ∀ artifact ∈ artifacts, ¬ tree.Meets p artifact.path := by
    rintro artifact hmem ⟨place, hhere, hthere⟩
    exact hapart artifact hmem place hthere (exists_of_landing hnames hdir hlinks hp hhere).2.2.1
  exact ⟨fun kind p hp place => isFile_of_landing hnames hdir hlinks hp,
    fun kind p hp artifact hmem hmeets => absurd hmeets (hnever hp artifact hmem),
    fun _ kind p hp artifact hmem hmeets => absurd hmeets (hnever hp artifact hmem)⟩

end Plain

/-- The sources of one kind after writing. -/
theorem Spares.exists_mapM (kind : SourceKind) (hspares : g.Spares before root artifacts)
    (hsettled : Settled before artifacts after) (hsound : before.IsSound)
    (hroot : before.canonical p = .ok root)
    (hread : (sourcePaths before (directory root kind)).mapM (readFile before) = .ok files) :
    ∃ files', (sourcePaths after (directory root kind)).mapM (readFile after) = .ok files' ∧
      files'.flatMap SourceFile.blocks = files.flatMap SourceFile.blocks ∧
      (g = .builtins → files'.map (·.path) = files.map (·.path) ∧
        files'.flatMap (·.declarations kind) = files.flatMap (·.declarations kind)) := by
  obtain ⟨names, hnames, hdir⟩ := exists_directory_eq hsound.root hroot kind
  have hall := forall₂_of_mapM_eq_ok hread
  have hformer : sourcePaths before (directory root kind) =
      (sourcePaths after (directory root kind)).filter before.isFile := by
    rw [hdir]
    exact sourcePaths_eq_filter hsound.root (hsettled.sound hsound).root hsettled.keeps hnames
  have hcases {p : Path} (hp : p ∈ sourcePaths after (directory root kind)) :
      after.isFile p ∧ IsCandidate root kind p ∧
        ((before.isFile p ∧ ∃ file, readFile before p = .ok file ∧ readFile after p = .ok file) ∨
          ∃ artifact ∈ artifacts, before.Meets p artifact.path ∧
            readFile after p = .ok ⟨p, artifact.contents⟩) := by
    obtain ⟨hcandidate, hfile⟩ :=
      (mem_sourcePaths_iff (hsettled.sound hsound).root hnames hdir).1 hp
    refine ⟨hfile, hcandidate, ?_⟩
    refine (readFile_of_settled hsettled (hspares.stays kind p hcandidate) hfile).imp_left ?_
    rintro ⟨hbefore, hsame⟩
    have hmem : p ∈ sourcePaths before (directory root kind) :=
      (mem_sourcePaths_iff hsound.root hnames hdir).2 ⟨hcandidate, hbefore⟩
    obtain ⟨file, hfile⟩ := exists_readFile_of_mem hall hmem
    exact ⟨hbefore, file, hfile, hsame.trans hfile⟩
  have hfiles : ∀ p ∈ sourcePaths after (directory root kind), after.isFile p := fun p hp =>
    (hcases hp).1
  have hreads : ∀ p ∈ sourcePaths after (directory root kind),
      ∃ file, readFile after p = .ok file := by
    intro p hp
    obtain ⟨-, -, ⟨-, file, -, hfile⟩ | ⟨_, -, -, hfile⟩⟩ := hcases hp
    · exact ⟨file, hfile⟩
    · exact ⟨_, hfile⟩
  obtain ⟨files', hread'⟩ := exists_mapM_eq_ok hreads
  have hall' := forall₂_of_mapM_eq_ok hread'
  -- Whatever is taken from sources is the same where it is the same in what is written to them.
  have hsame {β : Type} (f : SourceFile → List β)
      (hwritten : ∀ p, IsCandidate root kind p → ∀ artifact ∈ artifacts,
        before.Meets p artifact.path → f ⟨p, artifact.contents⟩ = gathered before f p) :
      files'.flatMap f = files.flatMap f := by
    calc files'.flatMap f
        = (sourcePaths after (directory root kind)).flatMap (gathered after f) :=
          flatMap_eq_gathered hfiles hall' f
      _ = (sourcePaths after (directory root kind)).flatMap (gathered before f) := by
          refine List.flatMap_congr fun p hp => ?_
          obtain ⟨hfile, hcandidate, hcase⟩ := hcases hp
          rcases hcase with ⟨hbefore, file, hold, hnew⟩ | ⟨artifact, hmem, hmeets, hnew⟩
          · rw [gathered_of_readFile hfile hnew, gathered_of_readFile hbefore hold]
          · rw [gathered_of_readFile hfile hnew, hwritten p hcandidate artifact hmem hmeets]
      _ = (sourcePaths before (directory root kind)).flatMap (gathered before f) := by
          rw [hformer, flatMap_filter_eq fun p hp => by simp [gathered, hp]]
      _ = files.flatMap f :=
          (flatMap_eq_gathered (fun p hp => isFile_of_mem_sourcePaths hp) hall f).symm
  refine ⟨files', hread', hsame _ (hspares.blocks_eq kind), fun hg => ?_⟩
  have hdeclarations := hsame (·.declarations kind) fun p hp artifact hmem hmeets =>
    (hspares.declarations_eq hg kind p hp artifact hmem hmeets).2
  refine ⟨?_, hdeclarations⟩
  have hpaths : sourcePaths before (directory root kind) =
      sourcePaths after (directory root kind) := by
    rw [hformer, List.filter_eq_self]
    intro p hp
    obtain ⟨-, hcandidate, ⟨hbefore, -⟩ | ⟨artifact, hmem, hmeets, -⟩⟩ := hcases hp
    · exact hbefore
    · exact (hspares.declarations_eq hg kind p hcandidate artifact hmem hmeets).1
  rw [(map_path_eq hall').1, (map_path_eq hall).1, hpaths]

/-- The sources after writing, taken together. -/
theorem Spares.exists_load (hfind : find.IsExact) (hspares : g.Spares before set.root artifacts)
    (hsettled : Settled before artifacts after) (hsound : before.IsSound)
    (hload : load find before .standard root = .ok set) :
    ∃ again, load find after .standard root = .ok again ∧ again.root = set.root ∧
      again.blocks = set.blocks ∧
      (g = .builtins → again.grouped.map (·.path) = set.grouped.map (·.path) ∧
        again.declarations = set.declarations) := by
  obtain ⟨hdir, hroot, hgrouped, hindividual⟩ := (load_eq_ok_iff hfind hsound.root).1 hload
  obtain ⟨grouped, hgrouped', hblocks, hrest⟩ :=
    hspares.exists_mapM .grouped hsettled hsound hroot hgrouped
  obtain ⟨individual, hindividual', hblocks', hrest'⟩ :=
    hspares.exists_mapM .individual hsettled hsound hroot hindividual
  refine ⟨⟨set.root, grouped, individual⟩, ?_, rfl, ?_, fun hg => ⟨(hrest hg).1, ?_⟩⟩
  · exact (load_eq_ok_iff hfind (hsettled.sound hsound).root).2
      ⟨isDir_of_keeps hsettled.keeps hdir, canonical_of_keeps hsettled.keeps hroot, hgrouped',
        hindividual'⟩
  · rw [SourceSet.blocks, SourceSet.blocks, List.flatMap_append, List.flatMap_append, hblocks,
      hblocks']
  · rw [SourceSet.declarations, SourceSet.declarations, (hrest hg).2, (hrest' hg).2]

/-- A run depends on the tree only by what the generator takes from the sources. -/
theorem run_congr {output : Path} (hload : load find before .standard root = .ok set)
    (hagain : load find after .standard root = .ok again) (hroot : again.root = set.root)
    (hblocks : again.blocks = set.blocks)
    (hrest : g = .builtins → again.grouped.map (·.path) = set.grouped.map (·.path) ∧
      again.declarations = set.declarations) (policy : Policy) :
    g.run find after ⟨.standard, policy⟩ root output =
      g.run find before ⟨.standard, policy⟩ root output := by
  have hwarnings : Assembly.warnings again = Assembly.warnings set := by
    rw [Assembly.warnings, hblocks, Assembly.warnings]
  rw [run_of_load hload, run_of_load hagain, hwarnings]
  cases g with
  | builtins =>
    obtain ⟨hpaths, hdeclarations⟩ := hrest rfl
    have hincludes : again.grouped.map (fun file => Path.textFrom again.root file.path) =
        set.grouped.map fun file => Path.textFrom set.root file.path := by
      have hmapped := congrArg (List.map (Path.textFrom set.root)) hpaths
      rw [List.map_map, List.map_map] at hmapped
      rw [hroot]
      exact hmapped
    have hassembly : Assembly.ofSources again = Assembly.ofSources set := by
      simp only [Assembly.ofSources, hblocks, hdeclarations, hincludes]
    rw [hassembly]
  | table =>
    -- Conflicts between the sections may come and go, but do not concern the table.
    have hjudged (set : SourceSet) : (Assembly.ofSources set).collisions.filter
        (·.affects = judged .table) =
        (Entry.collisions (Assembly.ofSources set).entries).filter (·.affects = judged .table) := by
      have hnone :
          (Sections.conflicts set.declarations).filter (·.affects = judged .table) = [] := by
        rw [Sections.conflicts, List.filter_map, List.map_eq_nil_iff, List.filter_eq_nil_iff]
        exact fun _ _ => Bool.false_ne_true
      rw [Assembly.ofSources, List.filter_append, hnone, List.nil_append]
    have hentries : (Assembly.ofSources again).entries = (Assembly.ofSources set).entries := by
      simp only [Assembly.ofSources, hblocks]
    simp only [Policy.judge, hjudged, hentries, artifacts, Artifact.render]

end Generator
end Optable
