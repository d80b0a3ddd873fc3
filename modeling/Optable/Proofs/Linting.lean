import Optable.CommandLine.Program
import Optable.Proofs.Selection
/-!
# What a run of the lint tool does

The tool is invoked once for each of the first sources, in their order, and not again after the
first invocation without success.  A run ends as its last invocation does.  That no other invocation
is made is said by a record, which every invocation is entered in (`recording`).
-/

namespace Optable

namespace Lint

/-! ## The sources -/

section Sources

variable {read : CompileDatabase.Reader} {tree : FileTree} {buildDir : Path}

/-- The compile database of a build directory is not there or cannot be read, is not of its form,
or names no source to lint. -/
inductive FindsNothing (read : CompileDatabase.Reader) (tree : FileTree) (buildDir : Path) : Prop
  | unreadable {e : AccessError}
      (h : tree.readText (buildDir.join CompileDatabase.fileName) = .error e)
  | malformed {text e : Text}
      (h : tree.readText (buildDir.join CompileDatabase.fileName) = .ok text)
      (hread : read text = .error e)
  | nothing {text : Text} {compiled : List CompiledFile}
      (h : tree.readText (buildDir.join CompileDatabase.fileName) = .ok text)
      (hread : read text = .ok compiled)
      (hselect : select (.ofTree tree) buildDir compiled = [])

theorem FindsNothing.exists_fault (h : FindsNothing read tree buildDir) :
    ∃ fault, sources read tree buildDir = .error fault := by
  cases hsources : sources read tree buildDir with
  | error fault => exact ⟨fault, rfl⟩
  | ok found =>
    obtain ⟨compiled, hdatabase, hne, hselect⟩ := sources_eq_ok_iff.1 hsources
    obtain ⟨text, htext, hread⟩ := readDatabase_eq_ok_iff.1 hdatabase
    cases h with
    | unreadable h => simp [h] at htext
    | malformed h herror => simp_all
    | nothing h hcompiled hnothing => simp_all

end Sources

/-! ## Steps -/

section Steps

variable {σ : Type u} {invoke : σ → Path → Invocation × σ} {sources : List Path}
  {steps : List Step}

/-- Steps over sources: one for each of the first of them, in their order, up to the first one
without success, or one for each of them. -/
structure IsRun (sources : List Path) (steps : List Step) : Prop where
  sources_eq : steps.map (·.source) = sources.take steps.length
  succeeded : ∀ step ∈ steps.dropLast, step.invocation.ending.succeeded
  stopped : steps.length < sources.length →
    ∃ last ∈ steps.getLast?, last.invocation.ending.succeeded = false

theorem isRun_nil : IsRun [] [] := ⟨rfl, by simp, by simp⟩

theorem IsRun.cons {source : Path} {invocation : Invocation} (h : IsRun sources steps)
    (hsuccess : invocation.ending.succeeded) :
    IsRun (source :: sources) (⟨source, invocation⟩ :: steps) := by
  obtain ⟨hsources, hsucceeded, hstopped⟩ := h
  refine ⟨by simp [hsources], ?_, fun hlength => ?_⟩
  · cases steps with
    | nil => simp
    | cons next steps => simpa [hsuccess] using hsucceeded
  · obtain ⟨last, hlast, hfailed⟩ := hstopped (by simpa using hlength)
    refine ⟨last, ?_, hfailed⟩
    cases steps with
    | nil => cases hlast
    | cons next steps => rwa [List.getLast?_cons_cons]

theorem isRun_run (invoke : σ → Path → Invocation × σ) (state : σ) (sources : List Path) :
    IsRun sources (run invoke state sources).1 := by
  induction sources generalizing state with
  | nil => exact isRun_nil
  | cons source sources ih =>
    rw [run]
    cases hinvoke : invoke state source with
    | mk invocation state' =>
      cases hsucceeded : invocation.ending.succeeded with
      | true =>
        simp only [hsucceeded, if_true]
        exact (ih state').cons hsucceeded
      | false =>
        simp only [hsucceeded, Bool.false_eq_true, if_false]
        exact ⟨by simp, by simp, fun _ => ⟨_, rfl, hsucceeded⟩⟩

theorem ending_concat (init : List Step) (last : Step) :
    ending (init ++ [last]) = last.invocation.ending := by
  simp [ending]

theorem IsRun.length_le (h : IsRun sources steps) : steps.length ≤ sources.length := by
  have hlength := congrArg List.length h.sources_eq
  rw [List.length_map, List.length_take] at hlength
  omega

/-- A run ends with success exactly if there is a step for every source, each with success. -/
theorem IsRun.exitCode_eq_zero_iff (h : IsRun sources steps) :
    (ending steps).exitCode = 0 ↔
      steps.length = sources.length ∧ ∀ step ∈ steps, step.invocation.ending.succeeded := by
  have hle := h.length_le
  obtain ⟨-, hsucceeded, hstopped⟩ := h
  rw [Ending.exitCode_eq_zero_iff]
  rcases List.eq_nil_or_concat steps with rfl | ⟨init, last, rfl⟩
  · have hempty : ¬ 0 < sources.length := fun hpos => by
      obtain ⟨last, hlast, -⟩ := hstopped hpos
      cases hlast
    have hlength : sources.length = 0 := by omega
    simp [ending, Ending.succeeded, hlength]
  · rw [List.concat_eq_append] at *
    rw [ending_concat]
    rw [List.dropLast_concat] at hsucceeded
    constructor
    · intro hlast
      refine ⟨?_, List.forall_mem_append.2 ⟨hsucceeded, by simpa using hlast⟩⟩
      have hall : ¬ (init ++ [last]).length < sources.length := fun hlt => by
        obtain ⟨step, hstep, hfailed⟩ := hstopped hlt
        simp_all
      omega
    · rintro ⟨-, hall⟩
      exact hall last (by simp)

/-- Each source is announced, and what the tool prints for it comes after that. -/
theorem toList_stdout (steps : List Step) :
    (stdout steps).data.toList = steps.flatMap fun step =>
      (Text.toBytes (announcement step.source)).data.toList ++
        step.invocation.stdout.data.toList := by
  have hfold (out : ByteArray) (steps : List Step) :
      (steps.foldl (fun out step => out ++ Text.toBytes (announcement step.source)
        ++ step.invocation.stdout) out).data.toList =
      out.data.toList ++ steps.flatMap fun step =>
        (Text.toBytes (announcement step.source)).data.toList ++
          step.invocation.stdout.data.toList := by
    induction steps generalizing out with
    | nil => simp
    | cons step steps ih => simp [ih, ByteArray.data_append]
  exact hfold .empty steps

end Steps

end Lint

/-! ## Runs with a record of all invocations -/

namespace CommandLine

/-- An invocation of a tool, as it is entered in a record. -/
structure Call where
  tool : Path
  arguments : List Text
  invocation : Invocation

/-- The call that a step makes. -/
def Call.ofStep (tool buildDir : Path) (step : Lint.Step) : Call :=
  ⟨tool, lintArguments buildDir step.source, step.invocation⟩

theorem Call.ofStep_injective (tool buildDir : Path) :
    Function.Injective (Call.ofStep tool buildDir) := by
  rintro ⟨⟨p⟩, a⟩ ⟨⟨q⟩, b⟩ h
  simp_all [Call.ofStep, lintArguments]

/-- Invocations as before, each entered at the end of a record. -/
def recording {σ : Type u} (invoke : Invoker σ) : Invoker (σ × List Call) :=
  fun env tool arguments state =>
    let (invocation, after) := invoke env tool arguments state.1
    (invocation, after, state.2 ++ [⟨tool, arguments, invocation⟩])

variable {σ : Type u} {read : CompileDatabase.Reader} {invoke : Invoker σ} {env : Environment}
  {tree : FileTree} {state : σ} {calls : List Call} {buildDir tool : Path}

/-- What is asked before the first source: where the system's headers are, unless the environment
says so. -/
def sdkCalls (invoke : Invoker σ) (env : Environment) (state : σ) : List Call :=
  if (env.get? sdkVariable).isSome then []
  else
    let tool := Path.ofString "xcrun"
    let arguments := ["--show-sdk-path".toList]
    [⟨tool, arguments, (invoke env tool arguments state).1⟩]

theorem lintEnvironment_recording (invoke : Invoker σ) (env : Environment) (state : σ)
    (calls : List Call) :
    lintEnvironment (recording invoke) env (state, calls) =
      ((lintEnvironment invoke env state).1, (lintEnvironment invoke env state).2,
        calls ++ sdkCalls invoke env state) := by
  by_cases hset : (env.get? sdkVariable).isSome
  · simp [lintEnvironment, sdkCalls, hset]
  · have hcalls : calls ++ sdkCalls invoke env state =
        (askSdkRoot (recording invoke) env (state, calls)).2.2 := by
      simp [sdkCalls, hset, askSdkRoot, recording]
    have hask : askSdkRoot (recording invoke) env (state, calls) =
        ((askSdkRoot invoke env state).1, (askSdkRoot invoke env state).2,
          calls ++ sdkCalls invoke env state) := by
      rw [hcalls]
      rfl
    rw [lintEnvironment, lintEnvironment, hask]
    cases askSdkRoot invoke env state with
    | mk answer after => cases answer <;> simp [hset]

theorem run_recording (invoke : Invoker σ) (env : Environment) (tool buildDir : Path)
    (sources : List Path) (state : σ) (calls : List Call) :
    let lintOne (state : σ) (source : Path) :=
      invoke env tool (lintArguments buildDir source) state
    let lintNext (state : σ × List Call) (source : Path) :=
      recording invoke env tool (lintArguments buildDir source) state
    Lint.run lintNext (state, calls) sources =
      ((Lint.run lintOne state sources).1, (Lint.run lintOne state sources).2,
        calls ++ (Lint.run lintOne state sources).1.map (Call.ofStep tool buildDir)) := by
  intro lintOne lintNext
  induction sources generalizing state calls with
  | nil => simp [Lint.run]
  | cons source sources ih =>
    cases hinvoke : lintOne state source with
    | mk invocation after =>
      have hnext : lintNext (state, calls) source =
          (invocation, after, calls ++ [Call.ofStep tool buildDir ⟨source, invocation⟩]) := by
        simp only [lintNext, recording]
        simp only [lintOne] at hinvoke
        rw [hinvoke]
        rfl
      rw [Lint.run, Lint.run, hnext, hinvoke]
      cases hsuccess : invocation.ending.succeeded with
      | true =>
        simp [hsuccess, ih after]
      | false => simp [hsuccess]

theorem exists_isRun_of_sources_eq_ok {sources : List Path}
    (h : Lint.sources read tree ((Lint.PathSense.ofTree tree).normalize buildDir) = .ok sources) :
    ∃ steps, Lint.IsRun sources steps ∧
      (lintWith read invoke env tree state buildDir tool).1 = lintOutcome tool steps ∧
      (lintWith read (recording invoke) env tree (state, []) buildDir tool).2.2 =
        sdkCalls invoke env state ++
          steps.map (Call.ofStep tool ((Lint.PathSense.ofTree tree).normalize buildDir)) := by
  let dir := (Lint.PathSense.ofTree tree).normalize buildDir
  have hok : (Except.ok sources : Except Fault (List Path)).isOk = true := rfl
  have hrecord := lintEnvironment_recording invoke env state []
  cases henv : lintEnvironment invoke env state with
  | mk env' state' =>
    rw [henv, List.nil_append] at hrecord
    let lintOne (state : σ) (source : Path) := invoke env' tool (lintArguments dir source) state
    refine ⟨(Lint.run lintOne state' sources).1, Lint.isRun_run _ _ _, ?_, ?_⟩
    · simp only [lintWith, h, hok, if_true, henv, lintOver, lintOne, dir]
    · simp only [lintWith, h, hok, if_true, hrecord, lintOver, run_recording, lintOne, dir]

theorem lintWith_of_sources_eq_error {fault : Fault}
    (h : Lint.sources read tree ((Lint.PathSense.ofTree tree).normalize buildDir) = .error fault) :
    lintWith read invoke env tree state buildDir tool =
      (.failed [] [] (reportFault fault), state) := by
  have hnot : (Except.error fault : Except Fault (List Path)).isOk = false := rfl
  simp only [lintWith, h, hnot, Bool.false_eq_true, if_false, lintOver]

/-- A run of the lint tool over the sources for a build directory.  Where there are sources, the
tool is invoked for the first of them, once for each and in their order, up to the first invocation
without success, or else for all of them; each of these is announced, and none of the others.  The
run succeeds if all invocations do, and otherwise ends as the last one did.  Where there is nothing
to lint, no tool is started, and the run fails. -/
theorem lintWith_spec (read : CompileDatabase.Reader) (invoke : Invoker σ) (env : Environment)
    (tree : FileTree) (state : σ) (buildDir tool : Path) :
    let dir := (Lint.PathSense.ofTree tree).normalize buildDir
    let outcome := (lintWith read invoke env tree state buildDir tool).1
    let calls := (lintWith read (recording invoke) env tree (state, []) buildDir tool).2.2
    let xcrun := Path.ofString "xcrun"
    let probe := ["--show-sdk-path".toList]
    (∀ sources, Lint.sources read tree dir = .ok sources →
      sources ≠ [] ∧ sources.Nodup ∧ ∃ steps, Lint.IsRun sources steps ∧
        calls = (if (env.get? "SDKROOT").isSome then []
            else [⟨xcrun, probe, (invoke env xcrun probe state).1⟩]) ++
          steps.map (fun step => ⟨tool,
            ["-p".toList, dir.text, "--header-filter=src/.*".toList, step.source.text],
            step.invocation⟩) ∧
        outcome.stdout.data.toList = (steps.flatMap fun step =>
          (Text.toBytes ("Running clang-tidy on ".toList ++ step.source.text ++ ['\n'])).data.toList
            ++ step.invocation.stdout.data.toList) ∧
        (outcome.exit = 0 ↔
          steps.length = sources.length ∧ ∀ step ∈ steps, step.invocation.ending.succeeded) ∧
        ∀ last ∈ steps.getLast?,
          (∀ code, last.invocation.ending = .exited code → outcome.exit = code) ∧
          (∀ signal, last.invocation.ending = .killed signal → outcome.exit = 1) ∧
          ∀ e, last.invocation.ending = .notStarted e → outcome.exit = 1) ∧
    (Lint.FindsNothing read tree dir →
      calls = [] ∧ outcome.exit ≠ 0 ∧ outcome.stdout = .empty) := by
  intro dir outcome calls xcrun probe
  constructor
  · intro sources hsources
    obtain ⟨compiled, -, hne, hselect⟩ := Lint.sources_eq_ok_iff.1 hsources
    obtain ⟨steps, hrun, houtcome, hcalls⟩ := exists_isRun_of_sources_eq_ok hsources
    have hexit : outcome.exit = (Lint.ending steps).exitCode := congrArg Outcome.exit houtcome
    refine ⟨hne, hselect ▸ Lint.nodup_select _ _ _, steps, hrun, hcalls, ?_, ?_, ?_⟩
    · have hstdout : outcome.stdout = Lint.stdout steps := congrArg Outcome.stdout houtcome
      rw [hstdout]
      exact Lint.toList_stdout steps
    · rw [hexit]
      exact hrun.exitCode_eq_zero_iff
    · intro last hlast
      have hending : Lint.ending steps = last.invocation.ending := by
        obtain ⟨init, rfl⟩ := List.getLast?_eq_some_iff.1 hlast
        exact Lint.ending_concat init last
      rw [hexit, hending]
      refine ⟨?_, ?_, ?_⟩ <;> rintro _ h <;> rw [h] <;> rfl
  · intro hnothing
    obtain ⟨fault, hfault⟩ := hnothing.exists_fault
    have houtcome : outcome = .failed [] [] (reportFault fault) :=
      congrArg Prod.fst (lintWith_of_sources_eq_error hfault)
    have hcalls : calls = [] := by
      simp only [calls, lintWith_of_sources_eq_error hfault]
    rw [houtcome]
    exact ⟨hcalls, Nat.one_ne_zero, rfl⟩

/-- The compile database of the tree below: three sources, the second one seen from the build
directory and named twice, and a header of the system between them. -/
def lintDatabase : Text :=
  "[[\"/p/src/a.c\"],[\"../src/b.c\",\"/p/build\"],[\"/usr/stdio.h\"],".toList
    ++ "[\"/p/src/b.c\"],[\"/p/src/c.c\"]]".toList

def lintTree : FileTree where
  root := .dir [("p".toList, .dir
    [("build".toList, .dir
      [("compile_commands.json".toList, .file (Text.toBytes lintDatabase) false)]),
     ("src".toList, .dir
      [("a.c".toList, .file .empty false), ("b.c".toList, .file .empty false),
       ("c.c".toList, .file .empty false)])])]
  current := .place ["p".toList]

/-- The first invocation cannot be started, the second one prints a line and succeeds, and all
others are killed. -/
def brittle : Invoker Nat := fun _ _ _ n =>
  let invocation : Invocation := match n with
    | 0 => ⟨.notStarted (.os .notFound), .empty, .empty⟩
    | 1 => ⟨.exited 0, Text.toBytes "fine\n".toList, .empty⟩
    | _ => ⟨.killed 9, .empty, .empty⟩
  (invocation, n + 1)

theorem readText_lintTree :
    lintTree.readText (Path.join ⟨"/p/build".toList⟩ CompileDatabase.fileName) =
      .ok lintDatabase := by
  have hread : lintTree.read (Path.join ⟨"/p/build".toList⟩ CompileDatabase.fileName) =
      .ok (Text.toBytes lintDatabase) := by decide +kernel
  rw [FileTree.readText, hread]
  simp [bind, Except.bind, Text.ofBytes?_toBytes, pure, Except.pure]

def lintCompiled : List CompiledFile :=
  [⟨⟨"/p/src/a.c".toList⟩, none⟩, ⟨⟨"../src/b.c".toList⟩, some ⟨"/p/build".toList⟩⟩,
    ⟨⟨"/usr/stdio.h".toList⟩, none⟩, ⟨⟨"/p/src/b.c".toList⟩, none⟩, ⟨⟨"/p/src/c.c".toList⟩, none⟩]

theorem read_lintDatabase : CompileDatabase.read lintDatabase = .ok lintCompiled := by
  have h : (CompileDatabase.read lintDatabase).toOption = some lintCompiled := by decide +kernel
  exact Lint.PathSense.toOption_eq_some_iff.1 h

theorem sources_lintTree :
    Lint.sources CompileDatabase.read lintTree ⟨"/p/build".toList⟩ =
      .ok [⟨"/p/src/a.c".toList⟩, ⟨"/p/src/b.c".toList⟩, ⟨"/p/src/c.c".toList⟩] := by
  refine Lint.sources_eq_ok_iff.2 ⟨lintCompiled, ?_, by simp, by decide +kernel⟩
  exact Lint.readDatabase_eq_ok_iff.2 ⟨_, readText_lintTree, read_lintDatabase⟩

/-- With the second source the run comes to its end. -/
theorem lintWith_brittle :
    let sources := [⟨"/p/src/a.c".toList⟩, ⟨"/p/src/b.c".toList⟩, ⟨"/p/src/c.c".toList⟩]
    let buildDir : Path := ⟨"build".toList⟩
    let tool : Path := ⟨"clang-tidy".toList⟩
    let outcome := (lintWith CompileDatabase.read brittle ⟨[]⟩ lintTree 0 buildDir tool).1
    let filter := "--header-filter=src/.*".toList
    Lint.sources CompileDatabase.read lintTree ⟨"/p/build".toList⟩ = .ok sources ∧
      (lintWith CompileDatabase.read (recording brittle) ⟨[]⟩ lintTree (0, []) buildDir tool).2.2 =
        [⟨⟨"xcrun".toList⟩, ["--show-sdk-path".toList],
            ⟨.notStarted (.os .notFound), .empty, .empty⟩⟩,
          ⟨tool, ["-p".toList, "/p/build".toList, filter, "/p/src/a.c".toList],
            ⟨.exited 0, Text.toBytes "fine\n".toList, .empty⟩⟩,
          ⟨tool, ["-p".toList, "/p/build".toList, filter, "/p/src/b.c".toList],
            ⟨.killed 9, .empty, .empty⟩⟩] ∧
      outcome.stdout.data.toList =
        (Text.toBytes "Running clang-tidy on /p/src/a.c\n".toList).data.toList ++
          (Text.toBytes "fine\n".toList).data.toList ++
          (Text.toBytes "Running clang-tidy on /p/src/b.c\n".toList).data.toList ∧
      outcome.exit = 1 := by
  intro sources buildDir tool outcome filter
  have hdir : (Lint.PathSense.ofTree lintTree).normalize buildDir = ⟨"/p/build".toList⟩ := by
    decide +kernel
  obtain ⟨-, -, steps, -, hcalls, hstdout, -, hlast⟩ :=
    (lintWith_spec CompileDatabase.read brittle ⟨[]⟩ lintTree 0 buildDir tool).1 sources
      (hdir ▸ sources_lintTree)
  let first : Lint.Step :=
    ⟨⟨"/p/src/a.c".toList⟩, ⟨.exited 0, Text.toBytes "fine\n".toList, .empty⟩⟩
  let second : Lint.Step := ⟨⟨"/p/src/b.c".toList⟩, ⟨.killed 9, .empty, .empty⟩⟩
  have hmade : (lintWith CompileDatabase.read (recording brittle) ⟨[]⟩ lintTree (0, []) buildDir
      tool).2.2 =
      ⟨⟨"xcrun".toList⟩, ["--show-sdk-path".toList],
        ⟨.notStarted (.os .notFound), .empty, .empty⟩⟩ ::
        [first, second].map (Call.ofStep tool ⟨"/p/build".toList⟩) := by
    simp only [lintWith, hdir, sources_lintTree]
    rfl
  have hsteps : steps = [first, second] := by
    rw [hmade, hdir] at hcalls
    exact List.map_injective_iff.2 (Call.ofStep_injective _ _) (List.cons.inj hcalls).2.symm
  subst hsteps
  refine ⟨sources_lintTree, hmade, ?_, (hlast second rfl).2.1 9 rfl⟩
  rw [hstdout]
  rfl

end CommandLine
end Optable
