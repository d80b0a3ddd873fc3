import Optable.Generation
import Optable.Proofs.SharedIndex
/-!
# Warning and denying

A run that denies collisions is the run that warns about them behind a gate.  Without a collision
that concerns what is generated, both give the same files and log the same warnings.  With one, the
run that denies gives no file, and the reason that it names is what the other run warns about.
-/

namespace Optable

/-- What can be generated: the list of includes with the header, or the table. -/
inductive Generator where
  | builtins
  | table
  deriving DecidableEq, Repr

namespace Generator

/-- The generated file whose collisions are judged. -/
def judged : Generator → ArtifactKind
  | .builtins => .header
  | .table => .table

/-- One run of a generator. -/
def run : Generator → Finder → FileTree → Options → Path → Path → Logged (List Artifact)
  | .builtins => Generated.builtins
  | .table => Generated.table

/-- Conflicts between the sections concern the header, and shared indices the table. -/
def Minds : Generator → Collision → Prop
  | .builtins, .nativeConflict _ => True
  | .builtins, .sharedIndex .. => False
  | .table, .nativeConflict _ => False
  | .table, .sharedIndex .. => True

/-- The files that a generator makes of an assembly. -/
def artifacts (assembly : Assembly) (output : Path) : Generator → List Artifact
  | .builtins =>
    [⟨output.join ⟨ArtifactKind.includes.fileName⟩, Artifact.render assembly .includes⟩,
      ⟨output.join ⟨ArtifactKind.header.fileName⟩, Artifact.render assembly .header⟩]
  | .table => [⟨output, Artifact.render assembly .table⟩]

variable {g : Generator} {find : Finder} {tree : FileTree} {layout : Layout}
  {root output : Path} {set : SourceSet}

theorem minds_iff {c : Collision} : g.Minds c ↔ c.affects = g.judged := by
  cases g <;> cases c <;> simp [Minds, judged, Collision.affects]

instance (g : Generator) (c : Collision) : Decidable (g.Minds c) :=
  decidable_of_iff _ minds_iff.symm

theorem filter_affects (collisions : List Collision) :
    collisions.filter (·.affects = g.judged) = collisions.filter (g.Minds ·) := by
  refine List.filter_congr fun c _ => ?_
  simp only [minds_iff]

/-- A run that has loaded its sources ends as the policy judges their collisions.  What it has
logged until then are the warnings about doc blocks that are left out. -/
theorem run_of_load (hload : Sources.load find tree layout root = .ok set) (policy : Policy) :
    g.run find tree ⟨layout, policy⟩ root output =
      match policy.judge g.judged (Assembly.ofSources set).collisions with
      | .ok warnings =>
        ⟨.ok (g.artifacts (Assembly.ofSources set) output), Assembly.warnings set ++ warnings⟩
      | .error collisions => ⟨.error (.collisions collisions), Assembly.warnings set⟩ := by
  cases g with
  | builtins =>
    simp only [run, judged, Generated.builtins, Generated.assembly, hload]
    cases policy.judge .header (Assembly.ofSources set).collisions <;> rfl
  | table =>
    simp only [run, judged, Generated.table, Generated.assembly, hload]
    cases policy.judge .table (Assembly.ofSources set).collisions <;> rfl

theorem run_warn_of_load (hload : Sources.load find tree layout root = .ok set) :
    g.run find tree ⟨layout, .warn⟩ root output =
      ⟨.ok (g.artifacts (Assembly.ofSources set) output), Assembly.warnings set ++
        ((Assembly.ofSources set).collisions.filter (g.Minds ·)).map .collision⟩ := by
  rw [run_of_load hload, ← filter_affects]
  rfl

theorem run_deny_of_load_of_forall (hload : Sources.load find tree layout root = .ok set)
    (h : (Assembly.ofSources set).collisions.filter (g.Minds ·) = []) :
    g.run find tree ⟨layout, .deny⟩ root output = g.run find tree ⟨layout, .warn⟩ root output := by
  rw [run_warn_of_load hload, run_of_load hload, Policy.judge]
  simp only [filter_affects, h]
  rfl

theorem run_deny_of_load_of_exists (hload : Sources.load find tree layout root = .ok set)
    (h : (Assembly.ofSources set).collisions.filter (g.Minds ·) ≠ []) :
    g.run find tree ⟨layout, .deny⟩ root output =
      ⟨.error (.collisions ((Assembly.ofSources set).collisions.filter (g.Minds ·))),
        Assembly.warnings set⟩ := by
  rw [run_of_load hload, Policy.judge]
  simp only [filter_affects, List.isEmpty_iff, h, if_false]

/-- The warnings of assembling are about doc blocks that are left out, never about collisions. -/
theorem isOutOfRange_of_mem_warnings {w : Warning} (h : w ∈ Assembly.warnings set) :
    ∃ origin index name, w = .indexOutOfRange origin index name := by
  obtain ⟨block, -, hblock⟩ := List.mem_filterMap.1 h
  unfold Entry.warning? at hblock
  split at hblock
  · exact ⟨_, _, _, (Option.some.inj hblock).symm⟩
  · simp at hblock

/-- A run that warns always ends well.  It logs the warnings about doc blocks that are left out,
and then the collisions that concern the generator.  If there is none of these, denying gives the
same files and logs the same; if there are some, denying gives no file, it logs no more than the
warnings about doc blocks, and its reason says in the same order what the other run logs then. -/
theorem run_deny_eq_gate (g : Generator) (hload : Sources.load find tree layout root = .ok set)
    (output : Path) :
    ∃ artifacts logged,
      g.run find tree ⟨layout, .warn⟩ root output =
        ⟨.ok artifacts, Assembly.warnings set ++ logged⟩ ∧
      (∀ w ∈ Assembly.warnings set, ∃ origin index name, w = .indexOutOfRange origin index name) ∧
      (∀ w ∈ logged, ∃ c, w = .collision c) ∧
      ((g.run find tree ⟨layout, .deny⟩ root output).result.isOk ↔
        ∀ c ∈ (Assembly.ofSources set).collisions, ¬ g.Minds c) ∧
      ((g.run find tree ⟨layout, .deny⟩ root output).result.isOk →
        g.run find tree ⟨layout, .deny⟩ root output =
          g.run find tree ⟨layout, .warn⟩ root output) ∧
      ∀ fault, (g.run find tree ⟨layout, .deny⟩ root output).result = .error fault →
        (g.run find tree ⟨layout, .deny⟩ root output).warnings = Assembly.warnings set ∧
        ∃ reported, fault = .collisions reported ∧
          reported.map Collision.message = logged.map Warning.message := by
  let minded := (Assembly.ofSources set).collisions.filter (g.Minds ·)
  have hminded : minded = [] ↔ ∀ c ∈ (Assembly.ofSources set).collisions, ¬ g.Minds c := by
    simp only [minded, List.filter_eq_nil_iff, decide_eq_true_eq]
  have hmessages : minded.map Collision.message =
      (minded.map Warning.collision).map Warning.message := by
    rw [List.map_map]
    rfl
  refine ⟨_, minded.map .collision, run_warn_of_load hload,
    fun w => isOutOfRange_of_mem_warnings, ?_, ?_⟩
  · intro w hw
    obtain ⟨c, -, rfl⟩ := List.mem_map.1 hw
    exact ⟨c, rfl⟩
  rw [← hminded]
  -- The policies part only where some collision concerns the generator.
  by_cases h : minded = []
  · rw [run_deny_of_load_of_forall hload h, run_warn_of_load hload]
    refine ⟨iff_of_true rfl h, fun _ => rfl, ?_⟩
    rintro fault ⟨⟩
  · rw [run_deny_of_load_of_exists hload h]
    refine ⟨iff_of_false (by simp [Except.isOk, Except.toBool]) h, by rintro ⟨⟩, ?_⟩
    rintro fault ⟨⟩
    exact ⟨rfl, minded, rfl, hmessages⟩

/-- A file with two doc blocks of one index. -/
def sharedSource : SourceFile where
  path := ⟨"/src/builtin/a.c".toList⟩
  text := "/** Q0 OK 1 a : */ /** Q0 OK +1 b : */".toList

/-- A tree with nothing but that file. -/
def sharedTree : FileTree where
  root := .dir [("src".toList, .dir [("builtin".toList,
    .dir [("a.c".toList, .file (Text.toBytes sharedSource.text) false)])])]
  current := .place []

theorem not_isOk_run_deny_shared :
    let root : Path := ⟨['/']⟩
    let set : SourceSet := ⟨root, [sharedSource], []⟩
    Sources.load Pattern.find sharedTree .standard root = .ok set ∧
      ∃ artifacts logged,
        run .table Pattern.find sharedTree ⟨.standard, .warn⟩ root root =
          ⟨.ok artifacts, Assembly.warnings set ++ logged⟩ ∧
        ¬ (run .table Pattern.find sharedTree ⟨.standard, .deny⟩ root root).result.isOk := by
  intro root set
  have hload : Sources.load Pattern.find sharedTree .standard root = .ok set := by decide +kernel
  have hordered : Entry.order (Entry.ofBlocks set.blocks) = Entry.ofBlocks set.blocks :=
    Entry.order_of_pairwise (by decide +kernel)
  have hcollisions : (Assembly.ofSources set).collisions =
      [.sharedIndex 1 ["a".toList, "b".toList]] := by
    rw [Assembly.ofSources, hordered]
    decide +kernel
  have hminded : ¬ ∀ c ∈ (Assembly.ofSources set).collisions, ¬ Generator.table.Minds c := by
    simp [hcollisions, Minds]
  obtain ⟨artifacts, logged, hwarn, -, -, hdeny, -⟩ := run_deny_eq_gate .table hload root
  exact ⟨hload, artifacts, logged, hwarn, fun h => hminded (hdeny.1 h)⟩

end Generator
end Optable
