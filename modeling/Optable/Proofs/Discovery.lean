import Mathlib.Data.List.Perm.Basic
import Optable.Proofs.ByteOrder
import Optable.Proofs.Finder
import Optable.Sources
/-!
# Which sources are found

Under a canonical root the sources of a directory are listed exactly, given an exact finder: the
pattern goes down from the root by names, and stands for what lies directly inside the directory and
has the ending of sources.
-/

namespace Optable

open FileTree

namespace Sources

variable {find : Finder} {tree : FileTree} {root p q : Path} {names : List Text} {name : Text}
  {set : SourceSet} {file : SourceFile}

/-! ## What is listed -/

/-- The names of the source files in a directory, each once, by ascending bytes. -/
structure IsListing (tree : FileTree) (dir : Path) (sources : List Text) : Prop where
  mem_iff : ∀ name, name ∈ sources ↔
    name ∈ tree.names dir ∧ extension <:+ name ∧ tree.isFile (dir.join ⟨name⟩)
  ascending : sources.Pairwise fun a b =>
    (Text.toBytes a).data.toList < (Text.toBytes b).data.toList

/-- The names of a directory that are listed as sources. -/
def sourceNames (tree : FileTree) (dir : Path) : List Text :=
  ((tree.names dir).filter fun name => extension.isSuffixOf name && tree.isFile (dir.join ⟨name⟩))
    |>.mergeSort fun a b => !Text.precedes b a

def sourcePaths (tree : FileTree) (dir : Path) : List Path :=
  (sourceNames tree dir).map fun name => dir.join ⟨name⟩

theorem pairwise_mergeSort_precedes (l : List Text) :
    (l.mergeSort fun a b => !Text.precedes b a).Pairwise fun a b => !Text.precedes b a := by
  refine List.pairwise_mergeSort (fun a b c hab hbc => ?_) (fun a b => ?_) l
  · rw [Bool.not_eq_true', Bool.eq_false_iff] at *
    intro hca
    by_cases hne : a = b
    · subst hne
      exact hbc hca
    · exact hbc (Text.precedes_trans hca (Text.precedes_of_not_precedes hab (Ne.symm hne)))
  · rw [← Bool.not_and, Bool.not_eq_true', Bool.and_eq_false_iff, Bool.eq_false_iff,
      Bool.eq_false_iff, ← not_and_or]
    exact fun ⟨hba, hab⟩ => Text.precedes_irrefl a (Text.precedes_trans hab hba)

theorem mem_sourceNames_iff :
    name ∈ sourceNames tree p ↔
      name ∈ tree.names p ∧ extension <:+ name ∧ tree.isFile (p.join ⟨name⟩) := by
  rw [sourceNames, List.mem_mergeSort, List.mem_filter, Bool.and_eq_true,
    List.isSuffixOf_iff_suffix]

theorem isFile_of_mem_sourcePaths (h : q ∈ sourcePaths tree p) : tree.isFile q := by
  obtain ⟨name, hname, rfl⟩ := List.mem_map.1 h
  exact (mem_sourceNames_iff.1 hname).2.2

theorem nodup_sourceNames (hsound : tree.root.IsSound) (p : Path) : (sourceNames tree p).Nodup :=
  (List.mergeSort_perm _ _).nodup_iff.2 ((nodup_names hsound p).filter _)

theorem isListing_sourceNames (hsound : tree.root.IsSound) (p : Path) :
    IsListing tree p (sourceNames tree p) where
  mem_iff _ := mem_sourceNames_iff
  ascending := by
    have hsorted := (pairwise_mergeSort_precedes ((tree.names p).filter fun name =>
      extension.isSuffixOf name && tree.isFile (p.join ⟨name⟩))).and (nodup_sourceNames hsound p)
    refine hsorted.imp ?_
    rintro a b ⟨hle, hne⟩
    exact Text.data_toBytes_lt_iff.2 (Text.precedes_of_not_precedes (by simpa using hle) hne.symm)

theorem sourceNames_of_not_isDir (h : ¬ tree.isDir p) : sourceNames tree p = [] := by
  refine List.eq_nil_iff_forall_not_mem.2 fun name hname => ?_
  exact h (isDir_of_mem_names (mem_sourceNames_iff.1 hname).1)

/-- Names in the same order that are the same. -/
theorem mergeSort_precedes_eq {l l' : List Text} (h : l.Perm l') :
    (l.mergeSort fun a b => !Text.precedes b a) = l'.mergeSort fun a b => !Text.precedes b a := by
  refine ((List.mergeSort_perm _ _).trans
    (h.trans (List.mergeSort_perm _ _).symm)).eq_of_pairwise (fun a b _ _ hab hba => ?_)
    (pairwise_mergeSort_precedes _) (pairwise_mergeSort_precedes _)
  by_contra hne
  rw [Bool.not_eq_true', Bool.eq_false_iff] at hab hba
  exact hba (Text.precedes_of_not_precedes hab (Ne.symm hne))

theorem sourceNames_eq {sorted : List Text}
    (h : ((tree.names p).filter fun name =>
      extension.isSuffixOf name && tree.isFile (p.join ⟨name⟩)).Perm sorted)
    (hsorted : sorted.Pairwise fun a b => !Text.precedes b a) : sourceNames tree p = sorted := by
  rw [sourceNames, mergeSort_precedes_eq h, List.mergeSort_of_pairwise hsorted]

/-! ## How it is listed -/

section Order

theorem lex_append_left {l a b : List Path.Component} :
    List.lex (l ++ a) (l ++ b) Path.Component.precedes = List.lex a b Path.Component.precedes := by
  induction l with
  | nil => rfl
  | cons c l ih =>
    have hirrefl : Path.Component.precedes c c = false := by
      cases c with
      | name n => exact Bool.eq_false_iff.2 (Text.precedes_irrefl n)
      | _ => rfl
    simp [hirrefl, ih]

/-- Paths of names behind one place are in the order of these names. -/
theorem precedes_join {a b : Text} (ha : IsName a) (hb : IsName b) (place : List Text) :
    Path.precedes ((pathOf place).join ⟨a⟩) ((pathOf place).join ⟨b⟩) = Text.precedes a b := by
  have hcomponents {name : Text} (hname : IsName name) :
      ((pathOf place).join ⟨name⟩).components = (pathOf place).components ++ [.name name] := by
    have hrelative : Path.isAbsolute ⟨name⟩ = false :=
      decide_eq_false fun hhead => hname.slash_notMem (List.mem_of_mem_head? hhead)
    have hinner : Path.inner name = [.name name] :=
      Path.inner_text (c := .name name) ⟨hname.ofSegment?_eq, hname.slash_notMem⟩
    rw [Path.components_join hrelative (show (pathOf place).text ≠ [] from List.cons_ne_nil _ _),
      hinner]
  rw [Path.precedes, hcomponents ha, hcomponents hb, lex_append_left]
  simp [List.lex, Path.Component.precedes]

end Order

theorem ofSegment?_escape (hname : IsName name) :
    Path.Component.ofSegment? (Pattern.escape name) = some (.name (Pattern.escape name)) := by
  have hne {t : Text} (hplain : Pattern.escape t = t) (ht : name ≠ t) : Pattern.escape name ≠ t :=
    fun h => ht (Pattern.escape_injective (h.trans hplain.symm))
  unfold Path.Component.ofSegment?
  split
  · next h => exact absurd h (hne rfl hname.ne_nil)
  · next h => exact absurd h (hne rfl fun hdot => hname.ne_dots (.inl hdot))
  · next h => exact absurd h (hne rfl fun hdots => hname.ne_dots (.inr hdots))
  · rfl

/-- The pattern for the sources of a directory goes down by names. -/
theorem isDescent_inside (hnames : ∀ name ∈ names, IsName name) (hne : names ≠ []) :
    Pattern.IsDescent (Pattern.inside (pathOf names) extension) := by
  refine ⟨names.map Pattern.escape ++ ['*' :: extension], by simp, ?_, ?_⟩
  · rw [Pattern.splitOn_inside (by decide), splitOn_pathOf hnames hne]
    rfl
  · refine List.forall_mem_append.2 ⟨List.forall_mem_map.2 fun name hname => ?_, by decide⟩
    exact ofSegment?_escape (hnames name hname)

/-- A file that the pattern for the sources of a directory stands for is one of these. -/
theorem exists_sourceNames_of_matches
    (hnames : ∀ name ∈ names, IsName name) (hne : names ≠ [])
    (hmatches : Pattern.Matches (Pattern.inside (pathOf names) extension) p)
    (hfile : tree.isFile p) :
    ∃ name ∈ sourceNames tree (pathOf names), (pathOf names).join ⟨name⟩ = p := by
  obtain ⟨name, hsplit, hextension⟩ :=
    (Pattern.matches_inside_iff (by decide) (by decide)).1 hmatches
  have hslash : '/' ∉ name := Path.slash_notMem_of_mem_splitOn (t := p.text) (by simp [hsplit])
  have hsegment : Path.Component.ofSegment? name = some (.name name) := by
    have hlast : name.getLast? = some 'c' := by
      obtain ⟨front, rfl⟩ := hextension
      rw [List.getLast?_append]
      rfl
    unfold Path.Component.ofSegment?
    split
    · cases hlast
    · exact absurd hlast (by decide)
    · exact absurd hlast (by decide)
    · rfl
  have hrelative : Path.isAbsolute ⟨name⟩ = false :=
    decide_eq_false fun hhead => hslash (List.mem_of_mem_head? hhead)
  have hjoin : (pathOf names).join ⟨name⟩ = p := by
    have hwhole : List.intercalate ['/'] (p.text.splitOn '/') = p.text :=
      List.intercalate_splitOn '/'
    have htext : p.text = ((pathOf names).join ⟨name⟩).text := by
      rw [← hwhole, hsplit, ← List.splitOn_eq_singleton hslash, splitOn_pathOf hnames hne,
        ← splitOn_descent_append hnames, ← text_join_pathOf hnames hrelative,
        List.intercalate_splitOn]
    exact congrArg Path.mk htext.symm
  have hoccupied := occupied_of_isFile hfile
  rw [← hjoin] at hoccupied hfile
  have hmem := mem_names_of_occupied hnames hsegment hslash hoccupied
  exact ⟨name, mem_sourceNames_iff.2 ⟨hmem, hextension, hfile⟩, hjoin⟩

/-- The sources in a directory are files that the pattern for them stands for. -/
theorem matches_of_mem_sourceNames (hsound : tree.root.IsSound)
    (hnames : ∀ name ∈ names, IsName name) (hne : names ≠ [])
    (h : name ∈ sourceNames tree (pathOf names)) :
    IsName name ∧ tree.isFile (pathOf (names ++ [name])) ∧
      Pattern.Matches (Pattern.inside (pathOf names) extension) (pathOf (names ++ [name])) := by
  obtain ⟨hmem, hextension, hfile⟩ := mem_sourceNames_iff.1 h
  have hname := isName_of_mem_names hsound hmem
  have hall : ∀ n ∈ names ++ [name], IsName n :=
    List.forall_mem_append.2 ⟨hnames, by simpa using hname⟩
  rw [join_pathOf_name hnames hname] at hfile
  refine ⟨hname, hfile, (Pattern.matches_inside_iff (by decide) (by decide)).2 ⟨name, ?_,
    hextension⟩⟩
  rw [splitOn_pathOf hall (by simp), splitOn_pathOf hnames hne, List.cons_append]

/-- The order of what a function makes of a list comes from the list. -/
theorem exists_map_eq_of_perm {α β : Type} {f : α → β} {l : List α} {m : List β}
    (h : m.Perm (l.map f)) : ∃ l' : List α, l'.Perm l ∧ m = l'.map f := by
  have hall : List.Forall₂ (fun b a => b = f a) (l.map f) l := by
    rw [List.forall₂_map_left_iff]
    exact List.forall₂_same.2 fun _ _ => rfl
  obtain ⟨l', hm, hperm⟩ := List.perm_comp_forall₂ h hall
  refine ⟨l', hperm, ?_⟩
  rwa [← List.forall₂_eq_eq_eq, List.forall₂_map_right_iff]

/-- Sources that were found in any order, each once, are sorted as their names are. -/
theorem mergeSort_eq_sourcePaths (hsound : tree.root.IsSound) (hnames : ∀ name ∈ names, IsName name)
    {files : List Path} (hnodup : files.Nodup)
    (hfiles : ∀ p, p ∈ files ↔ p ∈ sourcePaths tree (pathOf names)) :
    files.mergeSort (fun p q => !Path.precedes q p) = sourcePaths tree (pathOf names) := by
  have hvalid {name : Text} (hname : name ∈ sourceNames tree (pathOf names)) : IsName name :=
    isName_of_mem_names hsound (mem_sourceNames_iff.1 hname).1
  have hpaths : (sourcePaths tree (pathOf names)).Nodup := by
    refine List.Nodup.map_on (fun a ha b hb hab => ?_) (nodup_sourceNames hsound _)
    rw [join_pathOf_name hnames (hvalid ha), join_pathOf_name hnames (hvalid hb)] at hab
    exact Pattern.pathOf_append_inj hnames (by simpa using hvalid ha) (by simpa using hvalid hb) hab
  obtain ⟨l, hl, rfl⟩ :=
    exists_map_eq_of_perm ((List.perm_ext_iff_of_nodup hnodup hpaths).2 hfiles)
  have hsorted : l.mergeSort (fun a b => !Text.precedes b a) = sourceNames tree (pathOf names) :=
    (mergeSort_precedes_eq hl).trans (List.mergeSort_of_pairwise (pairwise_mergeSort_precedes _))
  rw [sourcePaths, ← hsorted]
  refine (List.map_mergeSort fun a ha b hb => ?_).symm
  rw [precedes_join (hvalid (hl.mem_iff.1 hb)) (hvalid (hl.mem_iff.1 ha))]

/-- What is listed are the sources in the directory, in their order. -/
theorem list_pathOf (hfind : find.IsExact) (hsound : tree.root.IsSound)
    (hnames : ∀ name ∈ names, IsName name) (hne : names ≠ []) :
    list find tree (pathOf names) = .ok (sourcePaths tree (pathOf names)) := by
  have hpattern := isDescent_inside hnames hne
  obtain ⟨found, hfound⟩ := hfind.accepts tree (Pattern.inside (pathOf names) extension)
    (Pattern.isSome_read?_inside (by decide) (by decide) _)
  have hmem (p : Path) : p ∈ (found.filterMap Except.toOption).filter tree.isFile ↔
      .ok p ∈ found ∧ tree.isFile p := by
    rw [List.mem_filter, List.mem_filterMap]
    refine and_congr_left fun _ => ⟨?_, fun hp => ⟨_, hp, rfl⟩⟩
    rintro ⟨_ | q, hx, hxp⟩
    · cases hxp
    · exact Option.some.inj hxp ▸ hx
  simp only [list, hfound, Except.mapError]
  refine congrArg Except.ok (mergeSort_eq_sourcePaths hsound hnames
    ((hfind.nodup hsound hpattern hfound).filter _) fun p => (hmem p).trans ⟨?_, fun hp => ?_⟩)
  · rintro ⟨hp, hfile⟩
    have hmatches := hfind.sound hsound hpattern hfound hp
    exact List.mem_map.2 (exists_sourceNames_of_matches hnames hne hmatches hfile)
  · obtain ⟨name, hname, rfl⟩ := List.mem_map.1 hp
    obtain ⟨hname, hfile, hmatches⟩ := matches_of_mem_sourceNames hsound hnames hne hname
    have hall : ∀ n ∈ names ++ [name], IsName n :=
      List.forall_mem_append.2 ⟨hnames, by simpa using hname⟩
    rw [join_pathOf_name hnames hname]
    exact ⟨hfind.complete hsound hpattern hfound (by simp) hall (occupied_of_isFile hfile) hmatches,
      hfile⟩


/-! ## The usual layout -/

/-- The names on the way from the root to the grouped sources. -/
def builtinNames : List Text := ["src".toList, "builtin".toList]

theorem join_builtinDir (hnames : ∀ name ∈ names, IsName name) :
    (pathOf names).join Layout.standard.builtinDir = pathOf (names ++ builtinNames) := by
  have hdir : Layout.standard.builtinDir = ⟨List.intercalate ['/'] builtinNames⟩ := by decide
  rw [hdir]
  exact join_pathOf hnames (List.cons_ne_nil _ _) (by decide)

theorem join_individualDir (hnames : ∀ name ∈ names, IsName name) :
    (pathOf names).join Layout.standard.individualDir = pathOf (names ++ ["individual".toList]) :=
  join_pathOf_name hnames (by decide)

/-- The files that are read under a canonical root: the grouped ones and the individual ones. -/
def files (tree : FileTree) (root : Path) : List Path × List Path :=
  let builtinDir := root.join Layout.standard.builtinDir
  (sourcePaths tree builtinDir, sourcePaths tree (builtinDir.join Layout.standard.individualDir))

/-- Under a canonical root both directories have paths of names. -/
theorem exists_names_of_standard (hsound : tree.root.IsSound) (h : tree.canonical root = .ok q) :
    ∃ names, names ≠ [] ∧ (∀ name ∈ names ++ ["individual".toList], IsName name) ∧
      q.join Layout.standard.builtinDir = pathOf names ∧
      (q.join Layout.standard.builtinDir).join Layout.standard.individualDir =
        pathOf (names ++ ["individual".toList]) := by
  obtain ⟨start, names, node, hspells, rfl⟩ := exists_spells h
  have hnames : ∀ name ∈ names ++ builtinNames, IsName name :=
    List.forall_mem_append.2 ⟨hsound.isName hspells.get?_eq, by decide⟩
  have hbuiltin := join_builtinDir (hsound.isName hspells.get?_eq)
  exact ⟨names ++ builtinNames, by simp [builtinNames],
    List.forall_mem_append.2 ⟨hnames, by decide⟩, hbuiltin,
    by rw [hbuiltin, join_individualDir hnames]⟩

/-- Under a canonical root the sources are listed, and then read in order. -/
theorem load_of_canonical (hfind : find.IsExact) (hsound : tree.root.IsSound)
    (hdir : tree.isDir (root.join Layout.standard.builtinDir))
    (hroot : tree.canonical root = .ok q) :
    load find tree .standard root = do
      let grouped ← (files tree q).1.mapM (readFile tree)
      let individual ← (files tree q).2.mapM (readFile tree)
      return ⟨q, grouped, individual⟩ := by
  obtain ⟨names, hne, hnames, hbuiltin, hindividual⟩ := exists_names_of_standard hsound hroot
  have hgroupedList := list_pathOf hfind hsound (List.forall_mem_append.1 hnames).1 hne
  have hindividualList := list_pathOf hfind hsound hnames (by simp)
  rw [← hbuiltin] at hgroupedList
  rw [← hindividual] at hindividualList
  unfold load files
  rw [hroot, if_pos hdir]
  dsimp only
  by_cases hbelow : tree.isDir
      ((q.join Layout.standard.builtinDir).join Layout.standard.individualDir)
  · simp [Except.mapError, bind, Except.bind, hbelow, hgroupedList, hindividualList]
  · simp [Except.mapError, bind, Except.bind, hbelow, hgroupedList, sourcePaths,
      sourceNames_of_not_isDir hbelow, pure, Except.pure]

theorem bind_eq_ok_iff {ε α β : Type} {x : Except ε α} {f : α → Except ε β} {b : β} :
    x >>= f = .ok b ↔ ∃ a, x = .ok a ∧ f a = .ok b := by
  cases x <;> simp [bind, Except.bind]

theorem load_eq_ok_iff (hfind : find.IsExact) (hsound : tree.root.IsSound) :
    load find tree .standard root = .ok set ↔
      tree.isDir (root.join Layout.standard.builtinDir) ∧ tree.canonical root = .ok set.root ∧
      (files tree set.root).1.mapM (readFile tree) = .ok set.grouped ∧
      (files tree set.root).2.mapM (readFile tree) = .ok set.individual := by
  by_cases hdir : tree.isDir (root.join Layout.standard.builtinDir)
  · cases hroot : tree.canonical root with
    | error e => simp [load, hdir, hroot, Except.mapError, bind, Except.bind]
    | ok q =>
      obtain ⟨found, grouped, individual⟩ := set
      rw [load_of_canonical hfind hsound hdir hroot]
      simp only [bind_eq_ok_iff, pure, Except.pure, Except.ok.injEq, SourceSet.mk.injEq, hdir,
        true_and]
      constructor
      · rintro ⟨_, hgrouped, _, hindividual, rfl, rfl, rfl⟩
        exact ⟨rfl, hgrouped, hindividual⟩
      · rintro ⟨rfl, hgrouped, hindividual⟩
        exact ⟨_, hgrouped, _, hindividual, rfl, rfl, rfl⟩
  · simp [load, hdir, bind, Except.bind, throw, throwThe, MonadExceptOf.throw]

theorem mapM_path_eq_ok {files : List SourceFile}
    (h : ∀ file ∈ files, readFile tree file.path = .ok file) :
    (files.map (·.path)).mapM (readFile tree) = .ok files := by
  induction files with
  | nil => rfl
  | cons file files ih =>
    obtain ⟨hfile, hfiles⟩ := List.forall_mem_cons.1 h
    rw [List.map_cons, List.mapM_cons, hfile, ih hfiles]
    rfl

theorem load_eq_ok_of_readFile (hfind : find.IsExact) (hsound : tree.root.IsSound)
    (hdir : tree.isDir (root.join Layout.standard.builtinDir))
    (hroot : tree.canonical root = .ok set.root)
    (hfiles : files tree set.root = (set.grouped.map (·.path), set.individual.map (·.path)))
    (hread : ∀ file ∈ set.grouped ++ set.individual, readFile tree file.path = .ok file) :
    load find tree .standard root = .ok set := by
  obtain ⟨hgrouped, hindividual⟩ := List.forall_mem_append.1 hread
  refine (load_eq_ok_iff hfind hsound).2 ⟨hdir, hroot, ?_, ?_⟩
  · rw [hfiles]
    exact mapM_path_eq_ok hgrouped
  · rw [hfiles]
    exact mapM_path_eq_ok hindividual

/-! ## What is read -/

theorem mapM_cases {ε α β : Type} (f : α → Except ε β) (l : List α) :
    (∃ out, l.mapM f = .ok out ∧ List.Forall₂ (fun a b => f a = .ok b) l out) ∨
      ∃ before a after e, l = before ++ a :: after ∧ (∀ b ∈ before, ∃ x, f b = .ok x) ∧
        f a = .error e ∧ l.mapM f = .error e := by
  induction l with
  | nil => exact .inl ⟨[], rfl, .nil⟩
  | cons a l ih =>
    rw [List.mapM_cons]
    cases ha : f a with
    | error e => exact .inr ⟨[], a, l, e, rfl, by simp, ha, rfl⟩
    | ok b =>
      rcases ih with ⟨out, hout, hall⟩ | ⟨before, a', after, e, rfl, hbefore, he, hmap⟩
      · refine .inl ⟨b :: out, ?_, .cons ha hall⟩
        rw [hout]
        rfl
      · refine .inr ⟨a :: before, a', after, e, rfl, List.forall_mem_cons.2 ⟨⟨b, ha⟩, hbefore⟩, he,
          ?_⟩
        rw [hmap]
        rfl

theorem readFile_eq_ok_iff :
    readFile tree p = .ok file ↔ file.path = p ∧ tree.readText p = .ok file.text := by
  obtain ⟨path, text⟩ := file
  unfold readFile
  cases tree.readText p <;> simp [and_comm, eq_comm]

/-- A file can be read, but it may hold no text. -/
theorem readFile_of_isFile {fault : Fault} (hfile : tree.isFile p)
    (h : readFile tree p = .error fault) :
    fault = .access p .invalidText ∧
      ∃ bytes, tree.read p = .ok bytes ∧ Text.ofBytes? bytes = none := by
  obtain ⟨names, bytes, executable, hfound⟩ := isFile_iff.1 hfile
  have hbytes : tree.read p = .ok bytes := by rw [FileTree.read, hfound]
  unfold readFile readText at h
  rw [hbytes] at h
  cases htext : Text.ofBytes? bytes with
  | some t => simp [htext, bind, Except.bind, pure, Except.pure] at h
  | none =>
    simp only [htext, bind, Except.bind, throw, throwThe, MonadExceptOf.throw,
      Except.error.injEq] at h
    exact ⟨h.symm, bytes, hbytes, htext⟩

/-- What comes of reading files in two lists: all their texts, or the first one that holds none. -/
inductive IsLoaded (tree : FileTree) (root : Path) (grouped individual : List Path) :
    Except Fault SourceSet → Prop
  | all {set : SourceSet} (hroot : set.root = root) (hgrouped : set.grouped.map (·.path) = grouped)
    (hindividual : set.individual.map (·.path) = individual)
    (htexts : ∀ file ∈ set.grouped ++ set.individual, tree.readText file.path = .ok file.text) :
    IsLoaded tree root grouped individual (.ok set)
  | unreadable {before after : List Path} {p : Path} {bytes : ByteArray}
    (hfirst : grouped ++ individual = before ++ p :: after)
    (hbefore : ∀ p' ∈ before, ∃ t, tree.readText p' = .ok t)
    (hread : tree.read p = .ok bytes) (htext : Text.ofBytes? bytes = none) :
    IsLoaded tree root grouped individual (.error (.access p .invalidText))

theorem map_path_eq {paths : List Path} {files : List SourceFile}
    (h : List.Forall₂ (fun p file => readFile tree p = .ok file) paths files) :
    files.map (·.path) = paths ∧ ∀ file ∈ files, tree.readText file.path = .ok file.text := by
  induction h with
  | nil => exact ⟨rfl, by simp⟩
  | cons hfile _ ih =>
    obtain ⟨hpath, htext⟩ := readFile_eq_ok_iff.1 hfile
    rw [← hpath] at htext
    exact ⟨by rw [List.map_cons, hpath, ih.1], List.forall_mem_cons.2 ⟨htext, ih.2⟩⟩

theorem exists_readText {paths : List Path} (h : ∀ p ∈ paths, ∃ file, readFile tree p = .ok file) :
    ∀ p ∈ paths, ∃ t, tree.readText p = .ok t := by
  intro p hp
  obtain ⟨file, hfile⟩ := h p hp
  exact ⟨file.text, (readFile_eq_ok_iff.1 hfile).2⟩

theorem isLoaded_load (hfind : find.IsExact) (hsound : tree.root.IsSound)
    (hdir : tree.isDir (root.join Layout.standard.builtinDir))
    (hroot : tree.canonical root = .ok q) :
    IsLoaded tree q (files tree q).1 (files tree q).2 (load find tree .standard root) := by
  have hgroupedFiles : ∀ p ∈ (files tree q).1, tree.isFile p := fun _ => isFile_of_mem_sourcePaths
  have hindividualFiles : ∀ p ∈ (files tree q).2, tree.isFile p := fun _ =>
    isFile_of_mem_sourcePaths
  rw [load_of_canonical hfind hsound hdir hroot]
  -- The individual files are read only if all grouped ones hold texts.
  rcases mapM_cases (readFile tree) (files tree q).1 with
    ⟨grouped, hgrouped, hall⟩ | ⟨before, p, after, e, hfirst, hbefore, he, hmap⟩
  · rcases mapM_cases (readFile tree) (files tree q).2 with
      ⟨individual, hindividual, hall'⟩ | ⟨before, p, after, e, hfirst, hbefore, he, hmap⟩
    · obtain ⟨hpaths, htexts⟩ := map_path_eq hall
      obtain ⟨hpaths', htexts'⟩ := map_path_eq hall'
      rw [hgrouped, hindividual]
      exact .all rfl hpaths hpaths' (List.forall_mem_append.2 ⟨htexts, htexts'⟩)
    · obtain ⟨rfl, bytes, hbytes, htext⟩ :=
        readFile_of_isFile (hindividualFiles p (by simp [hfirst])) he
      obtain ⟨hpaths, htexts⟩ := map_path_eq hall
      have hread : ∀ p ∈ (files tree q).1, ∃ t, tree.readText p = .ok t := by
        rw [← hpaths]
        exact List.forall_mem_map.2 fun file hmem => ⟨file.text, htexts file hmem⟩
      have hsplit : (files tree q).1 ++ (files tree q).2 =
          ((files tree q).1 ++ before) ++ p :: after := by
        rw [hfirst, List.append_assoc]
      rw [hgrouped, hmap]
      exact .unreadable hsplit (List.forall_mem_append.2 ⟨hread, exists_readText hbefore⟩) hbytes
        htext
  · obtain ⟨rfl, bytes, hbytes, htext⟩ :=
      readFile_of_isFile (hgroupedFiles p (by simp [hfirst])) he
    have hsplit : (files tree q).1 ++ (files tree q).2 =
        before ++ p :: (after ++ (files tree q).2) := by
      rw [hfirst, List.append_assoc, List.cons_append]
    rw [hmap]
    exact .unreadable hsplit (exists_readText hbefore) hbytes htext

end Sources
end Optable
