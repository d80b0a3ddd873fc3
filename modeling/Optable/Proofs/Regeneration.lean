import Optable.CommandLine.Program
import Optable.Proofs.Rereading
/-!
# Running again

A run reads the sources and writes what it generates from them.  What it wrote can be written again
without a change, so that a second run does the same as the first if the generator takes the same
from the sources that it finds.  It does unless the output lands among the sources, which the tree
before the run tells.
-/

namespace Optable

open FileTree CommandLine

namespace Generator

/-- The program that runs a generator. -/
def program : Generator → Program
  | .builtins => .builtins
  | .table => .table

/-- What a generator is said to generate. -/
def product : Generator → String
  | .builtins => "builtins"
  | .table => "table"

variable {g : Generator} {kit : Toolkit} {env : Environment} {tree tree' : FileTree}
  {arguments : List Text} {a : Arguments} {outcome : Outcome} {set : SourceSet}
  {generated : Logged (List Artifact)} {what : String} {root output : Path}

theorem program_run_of_read (h : kit.readArguments g.program arguments = .ok a)
    (env : Environment) (tree : FileTree) :
    g.program.run kit env tree arguments =
      writeGenerated tree g.product a.first
        (g.run kit.find tree { policy := a.policy } a.first a.second) := by
  cases g <;> simp only [Program.run, h] <;> rfl

theorem writeGenerated_ok (tree : FileTree) (what : String) (root : Path)
    (artifacts : List Artifact) (warnings : List Warning) :
    writeGenerated tree what root ⟨.ok artifacts, warnings⟩ =
      ({ (writeArtifacts tree [] [] artifacts).1 with log := warnings },
        (writeArtifacts tree [] [] artifacts).2) := rfl

/-- A run that ends well has written what was generated. -/
theorem exists_artifacts_of_exit (h : writeGenerated tree what root generated = (outcome, tree'))
    (hexit : outcome.exit = 0) :
    ∃ artifacts written, generated = ⟨.ok artifacts, generated.warnings⟩ ∧ written.exit = 0 ∧
      writeArtifacts tree [] [] artifacts = (written, tree') ∧
      outcome = { written with log := generated.warnings } := by
  obtain ⟨result, warnings⟩ := generated
  cases result with
  | error fault =>
    obtain ⟨rfl, -⟩ := Prod.mk.inj h
    cases hexit
  | ok artifacts =>
    rw [writeGenerated_ok] at h
    obtain ⟨rfl, rfl⟩ := Prod.mk.inj h
    exact ⟨artifacts, (writeArtifacts tree [] [] artifacts).1, rfl, hexit, rfl, rfl⟩

theorem exists_load_of_run {find : Finder} {policy : Policy} {artifacts : List Artifact}
    (h : (g.run find tree ⟨.standard, policy⟩ root output).result = .ok artifacts) :
    ∃ set, Sources.load find tree .standard root = .ok set := by
  cases hload : Sources.load find tree .standard root with
  | ok set => exact ⟨set, rfl⟩
  | error fault =>
    cases g <;>
      simp [run, Generated.builtins, Generated.table, Generated.assembly, hload, Except.map] at h

theorem program_run_of_load
    (hread : kit.readArguments g.program arguments = .ok ⟨root, output, .warn⟩)
    (hload : Sources.load kit.find tree .standard root = .ok set) (env : Environment) :
    ∃ warnings, g.program.run kit env tree arguments =
      writeGenerated tree g.product root
        ⟨.ok (g.artifacts (Assembly.ofSources set) output), warnings⟩ := by
  rw [program_run_of_read hread]
  exact ⟨_, congrArg _ (run_warn_of_load hload)⟩

section Example

/-- Two grouped sources and an individual one. -/
def builtinEntries : List (Text × Node) :=
  [("a.c".toList, .file (Text.toBytes "/** Q0 OK 1 a : */ void a_(pEnv env) { }".toList) false),
    ("b.c".toList, .file (Text.toBytes "/** Q0 OK 2 b : A -> B */ UNARY(b_, b)".toList) false),
    ("individual".toList, .dir
      [("c.c".toList, .file (Text.toBytes "/** Q1 OK 3 c : */".toList) false)])]

/-- A project of these sources, with more nodes beside them and in a directory apart, which a link
leads to. -/
def projectTree (beside apart : List (Text × Node)) : FileTree where
  root := .dir [("p".toList, .dir [("src".toList, .dir
      [("builtin".toList, .dir (builtinEntries ++ beside))])]),
    ("gen".toList, .dir apart), ("out".toList, .link ⟨"gen".toList⟩)]
  current := .place []

def projectSources : SourceSet where
  root := ⟨"/p".toList⟩
  grouped := [⟨⟨"/p/src/builtin/a.c".toList⟩, "/** Q0 OK 1 a : */ void a_(pEnv env) { }".toList⟩,
    ⟨⟨"/p/src/builtin/b.c".toList⟩, "/** Q0 OK 2 b : A -> B */ UNARY(b_, b)".toList⟩]
  individual := [⟨⟨"/p/src/builtin/individual/c.c".toList⟩, "/** Q1 OK 3 c : */".toList⟩]

theorem isName_project : ∀ name ∈ ["p".toList], IsName name := by
  decide

theorem allLinks_builtinEntries : (Node.dir builtinEntries).AllLinks fun _ => False :=
  Node.allLinks_dir_cons (Node.allLinks_file _ _) <|
    Node.allLinks_dir_cons (Node.allLinks_file _ _) <|
      Node.allLinks_dir_cons
        (Node.allLinks_dir_cons (Node.allLinks_file _ _) Node.allLinks_dir_nil)
        Node.allLinks_dir_nil

theorem isSound_root_projectTree {beside : List (Text × Node)}
    (h : (Node.dir (builtinEntries ++ beside)).IsSound) : (projectTree beside []).root.IsSound := by
  simp only [projectTree, Node.isSound_dir_cons, Node.isSound_dir_nil, Node.isSound_link, h]
  decide

theorem isSound_projectTree : (projectTree [] []).IsSound where
  root := by
    refine isSound_root_projectTree ?_
    simp only [builtinEntries, List.append_nil, Node.isSound_dir_cons, Node.isSound_dir_nil,
      Node.isSound_file]
    decide
  links := by
    have hsources : (Node.dir builtinEntries).AllLinks fun target => '\x00' ∉ target.text :=
      fun place target h => (allLinks_builtinEntries place target h).elim
    refine Node.allLinks_dir_cons ?_ (Node.allLinks_dir_cons Node.allLinks_dir_nil
      (Node.allLinks_dir_cons (Node.allLinks_link (by decide)) Node.allLinks_dir_nil))
    exact Node.allLinks_dir_cons (Node.allLinks_dir_cons hsources Node.allLinks_dir_nil)
      Node.allLinks_dir_nil

/-- The list of includes and the header, as files. -/
def products (includes header : Text) : List (Text × Node) :=
  [("builtin.c".toList, .file (Text.toBytes includes) false),
    ("builtin.h".toList, .file (Text.toBytes header) false)]

def sourcesDir : Path := ⟨"/p/src/builtin".toList⟩

def includesPath : Path := ⟨"/p/src/builtin/builtin.c".toList⟩

def headerPath : Path := ⟨"/p/src/builtin/builtin.h".toList⟩

def tablePath : Path := ⟨"/p/src/builtin/table.c".toList⟩

theorem load_projectTree :
    Sources.load Pattern.find (projectTree [] []) .standard ⟨"/p".toList⟩ = .ok projectSources := by
  refine Sources.load_eq_ok_of_readFile Pattern.isExact_find isSound_projectTree.root rfl rfl ?_
    (by decide +kernel)
  have hgrouped : Sources.sourceNames (projectTree [] [])
      (projectSources.root.join Layout.standard.builtinDir) = ["a.c".toList, "b.c".toList] :=
    Sources.sourceNames_eq (by decide +kernel) (by decide)
  have hindividual : Sources.sourceNames (projectTree [] [])
      ((projectSources.root.join Layout.standard.builtinDir).join Layout.standard.individualDir) =
        ["c.c".toList] :=
    Sources.sourceNames_eq (by decide +kernel) (by decide)
  rw [Sources.files, Sources.sourcePaths, Sources.sourcePaths, hgrouped, hindividual]
  decide

theorem readText_projectTree_products (includes header : Text) :
    (projectTree (products includes header) []).readText includesPath = .ok includes := by
  have hread : (projectTree (products includes header) []).read includesPath =
      .ok (Text.toBytes includes) := rfl
  rw [FileTree.readText, hread]
  simp [bind, Except.bind, Text.ofBytes?_toBytes, pure, Except.pure]

theorem isSound_projectTree_products (includes header : Text) :
    (projectTree (products includes header) []).root.IsSound := by
  refine isSound_root_projectTree ?_
  simp only [builtinEntries, products, List.cons_append, List.nil_append, List.map_cons,
    List.map_nil, Node.isSound_dir_cons, Node.isSound_dir_nil, Node.isSound_file]
  decide

/-- The list of includes that was put beside the sources is one of them. -/
theorem load_projectTree_products (includes header : Text) :
    Sources.load Pattern.find (projectTree (products includes header) []) .standard
        ⟨"/p".toList⟩ =
      .ok { projectSources with
        grouped := projectSources.grouped ++ [⟨includesPath, includes⟩] } := by
  let tree := projectTree (products includes header) []
  refine Sources.load_eq_ok_of_readFile Pattern.isExact_find
    (isSound_projectTree_products includes header) rfl rfl ?_ ?_
  · have hgrouped : Sources.sourceNames tree
        (projectSources.root.join Layout.standard.builtinDir) =
          ["a.c".toList, "b.c".toList, "builtin.c".toList] :=
      Sources.sourceNames_eq (.of_eq rfl) (by decide)
    have hindividual : Sources.sourceNames tree
        ((projectSources.root.join Layout.standard.builtinDir).join
          Layout.standard.individualDir) = ["c.c".toList] :=
      Sources.sourceNames_eq (.of_eq rfl) (by decide)
    rw [Sources.files, Sources.sourcePaths, Sources.sourcePaths, hgrouped, hindividual]
    rfl
  · simp only [projectSources, List.cons_append, List.nil_append, List.forall_mem_cons]
    exact ⟨rfl, rfl, Sources.readFile_eq_ok_iff.2
      ⟨rfl, readText_projectTree_products includes header⟩, rfl, by simp⟩

theorem writeArtifacts_pair {tree mid after : FileTree} {first second : Artifact}
    (hfirst : first.write tree = (.ok (), mid)) (hsecond : second.write mid = (.ok (), after)) :
    (writeArtifacts tree [] [] [first, second]).1.exit = 0 ∧
      (writeArtifacts tree [] [] [first, second]).2 = after := by
  obtain ⟨out, err, hrest⟩ := exists_writeArtifacts_cons hfirst [] [] [second]
  obtain ⟨out', err', hend⟩ := exists_writeArtifacts_cons hsecond out err []
  rw [hrest, hend]
  exact ⟨rfl, rfl⟩

theorem writeArtifacts_projectTree (includes header : Text) :
    (writeArtifacts (projectTree [] []) [] []
      [⟨includesPath, includes⟩, ⟨headerPath, header⟩]).1.exit = 0 ∧
    (writeArtifacts (projectTree [] []) [] []
      [⟨includesPath, includes⟩, ⟨headerPath, header⟩]).2 =
        projectTree (products includes header) [] := by
  have hincludes : Artifact.write (projectTree [] []) ⟨includesPath, includes⟩ =
      (.ok (), projectTree ((products includes header).take 1) []) :=
    write_of_hasParents (.of_isDir sourcesDir rfl rfl) rfl
  have hheader :
      Artifact.write (projectTree ((products includes header).take 1) []) ⟨headerPath, header⟩ =
        (.ok (), projectTree (products includes header) []) :=
    write_of_hasParents (.of_isDir sourcesDir rfl rfl) rfl
  exact writeArtifacts_pair hincludes hheader

theorem writeArtifacts_projectTree_products (former formerHeader includes header : Text) :
    (writeArtifacts (projectTree (products former formerHeader) []) [] []
      [⟨includesPath, includes⟩, ⟨headerPath, header⟩]).1.exit = 0 ∧
    (writeArtifacts (projectTree (products former formerHeader) []) [] []
      [⟨includesPath, includes⟩, ⟨headerPath, header⟩]).2 =
        projectTree (products includes header) [] := by
  have hincludes :
      Artifact.write (projectTree (products former formerHeader) []) ⟨includesPath, includes⟩ =
        (.ok (), projectTree (products includes formerHeader) []) :=
    write_of_hasParents (.of_isDir sourcesDir rfl rfl) rfl
  have hheader :
      Artifact.write (projectTree (products includes formerHeader) []) ⟨headerPath, header⟩ =
        (.ok (), projectTree (products includes header) []) :=
    write_of_hasParents (.of_isDir sourcesDir rfl rfl) rfl
  exact writeArtifacts_pair hincludes hheader

theorem resolve_includes_apart (aim : Aim) (haim : aim = .target ∨ aim = .file) :
    (projectTree [] []).resolve aim ⟨"/out/builtin.c".toList⟩ =
      .ok (.free ["gen".toList, "builtin.c".toList]) := by
  have hsplit : "/out/builtin.c".toList.splitOn '/' = [[], "out".toList, "builtin.c".toList] := by
    decide
  rcases haim with rfl | rfl <;> exact resolve_of_walk rfl (by decide) (by decide) hsplit rfl

theorem resolve_header_apart (aim : Aim) (haim : aim = .target ∨ aim = .file)
    (includes header : Text) {written : Nat} (hwritten : written = 0 ∨ written = 1) :
    (projectTree [] ((products includes header).take written)).resolve aim
        ⟨"/out/builtin.h".toList⟩ =
      .ok (.free ["gen".toList, "builtin.h".toList]) := by
  have hsplit : "/out/builtin.h".toList.splitOn '/' = [[], "out".toList, "builtin.h".toList] := by
    decide
  rcases hwritten with rfl | rfl <;> rcases haim with rfl | rfl <;>
    exact resolve_of_walk rfl (by decide) (by decide) hsplit rfl

theorem writeArtifacts_projectTree_apart (includes header : Text) :
    (writeArtifacts (projectTree [] []) [] []
      [⟨⟨"/out/builtin.c".toList⟩, includes⟩, ⟨⟨"/out/builtin.h".toList⟩, header⟩]).1.exit = 0 := by
  have hincludes :
      Artifact.write (projectTree [] []) ⟨⟨"/out/builtin.c".toList⟩, includes⟩ =
        (.ok (), projectTree [] ((products includes header).take 1)) := by
    refine write_of_hasParents (.of_isDir ⟨"/out".toList⟩ rfl rfl) ?_
    rw [FileTree.write, resolve_includes_apart .file (.inr rfl)]
    rfl
  have hheader :
      Artifact.write (projectTree [] ((products includes header).take 1))
          ⟨⟨"/out/builtin.h".toList⟩, header⟩ =
        (.ok (), projectTree [] (products includes header)) := by
    refine write_of_hasParents (.of_isDir ⟨"/out".toList⟩ rfl rfl) ?_
    rw [FileTree.write, resolve_header_apart .file (.inr rfl) _ _ (.inr rfl)]
    rfl
  exact (writeArtifacts_pair hincludes hheader).1

theorem artifacts_beside (assembly : Assembly) :
    Generator.builtins.artifacts assembly ⟨"/p/src/builtin".toList⟩ =
      [⟨includesPath, Artifact.render assembly .includes⟩,
        ⟨headerPath, Artifact.render assembly .header⟩] := by
  have hincludes : Path.join ⟨"/p/src/builtin".toList⟩ ⟨ArtifactKind.includes.fileName⟩ =
      includesPath := by decide
  have hheader : Path.join ⟨"/p/src/builtin".toList⟩ ⟨ArtifactKind.header.fileName⟩ =
      headerPath := by decide
  rw [artifacts, hincludes, hheader]

/-- One more file makes another list of includes. -/
theorem renderIncludes_append_ne (files : List Text) (file : Text) :
    Artifact.renderIncludes (files ++ [file]) ≠ Artifact.renderIncludes files := by
  intro h
  simp only [Artifact.renderIncludes, List.flatMap_append, ← List.append_assoc] at h
  have hline : Artifact.includeLine file = [] := by
    have hnil := List.append_right_eq_self.1 h
    rwa [List.flatMap_singleton] at hnil
  obtain ⟨-, hend⟩ := List.append_eq_nil_iff.1 hline
  revert hend
  decide

theorem render_includes_append_ne (set : SourceSet) (file : SourceFile) :
    Artifact.render (Assembly.ofSources { set with grouped := set.grouped ++ [file] }) .includes ≠
      Artifact.render (Assembly.ofSources set) .includes := by
  rw [Artifact.render, Artifact.render, Assembly.ofSources, Assembly.ofSources, List.map_append]
  exact renderIncludes_append_ne _ _

theorem writeArtifacts_projectTree_table (table : Text) :
    (writeArtifacts (projectTree [] []) [] [] [⟨tablePath, table⟩]).1.exit = 0 := by
  have htable : Artifact.write (projectTree [] []) ⟨tablePath, table⟩ =
      (.ok (), projectTree [("table.c".toList, .file (Text.toBytes table) false)] []) :=
    write_of_hasParents (.of_isDir sourcesDir rfl rfl) rfl
  obtain ⟨out, err, hend⟩ := exists_writeArtifacts_cons htable [] [] []
  rw [hend]
  rfl

theorem landing_projectTree :
    (projectTree [] []).landing ⟨"/out/builtin.c".toList⟩ =
      some ["gen".toList, "builtin.c".toList] ∧
    (projectTree [] []).landing ⟨"/out/builtin.h".toList⟩ =
      some ["gen".toList, "builtin.h".toList] ∧
    (projectTree [] []).landing tablePath =
      some ["p".toList, "src".toList, "builtin".toList, "table.c".toList] :=
  have htable : (projectTree [] []).resolve .target tablePath =
      .ok (.free ["p".toList, "src".toList, "builtin".toList, "table.c".toList]) := rfl
  ⟨landing_of_resolve (resolve_includes_apart .target (.inl rfl)) Aim.noConfusion,
    landing_of_resolve (resolve_header_apart .target (.inl rfl) [] [] (.inl rfl)) Aim.noConfusion,
    landing_of_resolve htable Aim.noConfusion⟩

theorem artifacts_apart (assembly : Assembly) :
    Generator.builtins.artifacts assembly ⟨"/out".toList⟩ =
      [⟨⟨"/out/builtin.c".toList⟩, Artifact.render assembly .includes⟩,
        ⟨⟨"/out/builtin.h".toList⟩, Artifact.render assembly .header⟩] := by
  have hincludes : Path.join ⟨"/out".toList⟩ ⟨ArtifactKind.includes.fileName⟩ =
      ⟨"/out/builtin.c".toList⟩ := by decide
  have hheader : Path.join ⟨"/out".toList⟩ ⟨ArtifactKind.header.fileName⟩ =
      ⟨"/out/builtin.h".toList⟩ := by decide
  rw [artifacts, hincludes, hheader]

theorem spares_apart (includes header : Text) :
    Generator.builtins.Spares (projectTree [] []) projectSources.root
      [⟨⟨"/out/builtin.c".toList⟩, includes⟩, ⟨⟨"/out/builtin.h".toList⟩, header⟩] := by
  obtain ⟨hincludes, hheader, -⟩ := landing_projectTree
  refine spares_of_apart isName_project rfl allLinks_builtinEntries ?_
  simp only [List.forall_mem_cons, hincludes, hheader]
  refine ⟨?_, ?_, by simp⟩
  · rintro place ⟨⟩
    decide
  · rintro place ⟨⟩
    decide

theorem blocks_table :
    SourceFile.blocks ⟨tablePath, Artifact.render (Assembly.ofSources projectSources) .table⟩ =
      [] := by
  have hordered : Entry.order (Entry.ofBlocks projectSources.blocks) =
      Entry.ofBlocks projectSources.blocks := Entry.order_of_pairwise (by decide +kernel)
  simp only [Artifact.render, Assembly.ofSources, hordered]
  decide +kernel

/-- The table has no doc blocks, so that it may lie beside the sources. -/
theorem spares_table : Generator.table.Spares (projectTree [] []) projectSources.root
    [⟨tablePath, Artifact.render (Assembly.ofSources projectSources) .table⟩] where
  stays kind p hp place := isFile_of_landing isName_project rfl
    allLinks_builtinEntries hp
  blocks_eq kind p hp artifact hmem hmeets := by
    obtain rfl := List.mem_singleton.1 hmem
    obtain ⟨place, hhere, hthere⟩ := hmeets
    obtain rfl := Option.some.inj (landing_projectTree.2.2.symm.trans hthere)
    obtain ⟨rfl, -⟩ := exists_of_landing isName_project rfl allLinks_builtinEntries hp hhere
    have hfile : (projectTree [] []).isFile tablePath = false := rfl
    have hpath : pathOf ["p".toList, "src".toList, "builtin".toList, "table.c".toList] =
        tablePath := by decide
    rw [hpath, blocks_table, Sources.gathered, hfile]
    rfl
  declarations_eq h := Generator.noConfusion h

end Example

end Generator

end Optable
