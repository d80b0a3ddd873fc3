import Optable.CommandLine.Program
import Optable.Proofs.Growth
/-!
# Writing again

Artifacts that were written can be written again, with the same outcome and without a change of
the tree.  The first time makes the directories and the files, and may write one file more than
once; afterwards each artifact goes into a file or a device that is there, and what an earlier one
leaves in a file gives way to a later one.
-/

namespace Optable

namespace Node

/-- Whether bytes can be written over a node. -/
def Accepts (bytes : ByteArray) : Node → Prop
  | .file _ _ => True
  | .device d => ¬ (d = .full ∧ bytes.size ≠ 0)
  | _ => False

/-- Whether a node has these bytes, or keeps none. -/
def Holds (bytes : ByteArray) : Node → Prop
  | .file held _ => held = bytes
  | .device _ => True
  | _ => False

/-- The device that a node is. -/
def device? : Node → Option Device
  | .device d => some d
  | _ => none

variable {node old new : Node} {bytes : ByteArray}

theorem Accepts.not_isDir (h : node.Accepts bytes) : ¬ node.isDir := by
  cases node <;> simp [Accepts, isDir] at *

theorem Holds.not_isDir (h : node.Holds bytes) : ¬ node.isDir := by
  cases node <;> simp [Holds, isDir] at *

theorem Accepts.of_alike (h : old.Accepts bytes) (halike : old.Alike new) : new.Accepts bytes := by
  cases halike with
  | file => trivial
  | device => exact h
  | link => exact h
  | dir => exact h

theorem Alike.device?_eq (h : old.Alike new) : new.device? = old.device? := by
  cases h <;> rfl

end Node

namespace FileTree

variable {tree tree' before after : FileTree} {names others : List Text} {node former : Node}
  {p : Path} {bytes bytes' : ByteArray}

/-- The tree with other bytes in the file at a place. -/
def store (tree : FileTree) (names : List Text) (bytes : ByteArray) : FileTree :=
  match tree.root.get? names with
  | some (.file _ executable) => tree.put names (.file bytes executable)
  | _ => tree

theorem store_of_file {held : ByteArray} {executable : Bool}
    (h : tree.root.get? names = some (.file held executable)) (bytes : ByteArray) :
    tree.store names bytes = tree.put names (.file bytes executable) := by
  simp only [store, h]

theorem store_of_not_isFile (h : tree.root.get? names = some node) (hnode : ¬ node.isFile)
    (bytes : ByteArray) : tree.store names bytes = tree := by
  cases node with
  | file => exact absurd rfl hnode
  | _ => simp only [store, h]

theorem store_of_holds (h : tree.root.get? names = some node) (hholds : node.Holds bytes) :
    tree.store names bytes = tree := by
  cases node with
  | file held executable =>
    obtain rfl : held = bytes := hholds
    rw [store_of_file h, put, Node.put_of_get? h]
  | _ => exact store_of_not_isFile h Bool.false_ne_true bytes

theorem keeps_store (tree : FileTree) (names : List Text) (bytes : ByteArray) :
    Keeps tree (tree.store names bytes) := by
  unfold store
  split
  · next held executable h =>
    refine keeps_put fun old hold => ?_
    obtain rfl := Option.some.inj (h.symm.trans hold)
    exact ⟨Bool.false_ne_true, .file held bytes executable executable⟩
  · exact .refl tree

theorem get?_store_self (h : tree.root.get? names = some node) (haccepts : node.Accepts bytes) :
    ∃ node', (tree.store names bytes).root.get? names = some node' ∧ node'.Holds bytes := by
  cases node with
  | file held executable =>
    rw [store_of_file h]
    exact ⟨_, Node.get?_put_self h _, rfl⟩
  | device d =>
    rw [store_of_not_isFile h Bool.false_ne_true]
    exact ⟨_, h, trivial⟩
  | link => cases haccepts
  | dir => cases haccepts

theorem get?_store_of_ne (hne : others ≠ names) (h : tree.root.get? others = some node)
    (hleaf : ¬ node.isDir) (bytes : ByteArray) :
    (tree.store names bytes).root.get? others = some node := by
  unfold store
  split
  · next hfile =>
    refine Node.get?_put_of_ne h hleaf (fun old hold => ?_) hne _
    obtain rfl := Option.some.inj (hfile.symm.trans hold)
    exact Bool.false_ne_true
  · exact h

/-- Apart from the file that was written to, all that holds no entries was there before. -/
theorem get?_of_store (h : (tree.store names bytes).root.get? others = some node)
    (hleaf : ¬ node.isDir) :
    tree.root.get? others = some node ∨ others = names ∧ node.Holds bytes := by
  unfold store at h
  split at h
  · rcases Node.get?_of_put (.file _ _) h hleaf with ⟨rfl, rfl⟩ | hold
    · exact .inr ⟨rfl, rfl⟩
    · exact .inl hold
  · exact .inl h

theorem IsSound.store (h : tree.IsSound) (names : List Text) (bytes : ByteArray) :
    (tree.store names bytes).IsSound := by
  unfold FileTree.store
  split
  · next hfile => exact h.put (.file _ _) (h.root.isName hfile)
  · exact h

theorem store_store (tree : FileTree) (names : List Text) (bytes bytes' : ByteArray) :
    (tree.store names bytes).store names bytes' = tree.store names bytes' := by
  cases h : tree.root.get? names with
  | none => simp only [store, h]
  | some node =>
    cases node with
    | file held executable =>
      have hput : (tree.put names (.file bytes executable)).root.get? names =
          some (.file bytes executable) := Node.get?_put_self h _
      rw [store_of_file h, store_of_file hput, store_of_file h, put, put, Node.put_put]
      rfl
    | _ => rw [store_of_not_isFile h Bool.false_ne_true]

/-- Bytes go into two files in either order. -/
theorem store_comm (hne : names ≠ others) (h : tree.root.get? names = some node)
    (hleaf : ¬ node.isDir) (hformer : tree.root.get? others = some former)
    (hformerLeaf : ¬ former.isDir) (bytes bytes' : ByteArray) :
    (tree.store names bytes).store others bytes' =
      (tree.store others bytes').store names bytes := by
  have hkept := get?_store_of_ne hne.symm hformer hformerLeaf bytes
  have hkept' := get?_store_of_ne hne h hleaf bytes'
  by_cases hfile : node.isFile
  · by_cases hformerFile : former.isFile
    · obtain ⟨held, executable, rfl⟩ := Node.isFile_iff.1 hfile
      obtain ⟨held', executable', rfl⟩ := Node.isFile_iff.1 hformerFile
      rw [store_of_file hkept, store_of_file hkept', store_of_file h, store_of_file hformer,
        put, put, put, put, Node.put_comm hne h hleaf hformer hformerLeaf]
    · rw [store_of_not_isFile hkept hformerFile, store_of_not_isFile hformer hformerFile]
  · rw [store_of_not_isFile h hfile, store_of_not_isFile hkept' hfile]

/-- A file is written over what accepts it, or made at a free name. -/
theorem write_cases (h : tree.write p bytes = (.ok (), tree')) :
    (∃ names node, tree.resolve .file p = .ok (.found names node) ∧ node.Accepts bytes ∧
      tree' = tree.store names bytes) ∨
    ∃ names, tree.resolve .file p = .ok (.free names) ∧
      tree' = tree.put names (.file bytes false) := by
  unfold write at h
  split at h
  · next names held executable hfound =>
    cases h
    exact .inl ⟨names, _, hfound, trivial, (store_of_file (isIn_of_resolve hfound) bytes).symm⟩
  · next names hfree =>
    cases h
    exact .inr ⟨names, hfree, rfl⟩
  · next names d hfound =>
    have hroot : tree.root.get? names = some (.device d) := isIn_of_resolve hfound
    obtain ⟨hspace, rfl⟩ := Prod.mk.inj h
    refine .inl ⟨names, _, hfound, ?_, (store_of_not_isFile hroot Bool.false_ne_true bytes).symm⟩
    intro hfull
    simp [hfull] at hspace
  · cases h
  · cases h

theorem write_of_accepts (h : tree.resolve .file p = .ok (.found names node))
    (haccepts : node.Accepts bytes) : tree.write p bytes = (.ok (), tree.store names bytes) := by
  have hroot : tree.root.get? names = some node := isIn_of_resolve h
  unfold write
  cases node with
  | file held executable => simp only [h, store_of_file hroot]
  | device d =>
    have hspace : ¬ (d = .full ∧ bytes.size ≠ 0) := haccepts
    simp only [h, store_of_not_isFile hroot Bool.false_ne_true, if_neg hspace]
  | link => cases haccepts
  | dir => cases haccepts

theorem device?_of_resolve {place : Place} (h : tree.resolve .target p = .ok place) :
    tree.device? p = place.node?.bind Node.device? := by
  unfold device? node?
  rw [h]
  cases place with
  | found names node => cases node <;> rfl
  | free => rfl
  | removed => rfl

/-- What a file can be written to is the same device, or none, in a tree that has grown. -/
theorem device?_of_keeps (hkeeps : Keeps before after)
    (h : before.resolve .file p = .ok (.found names node)) :
    after.device? p = before.device? p := by
  obtain ⟨node', h', halike⟩ := exists_resolve_of_keeps hkeeps h
  rw [device?_of_resolve (resolve_target_of_file h'), device?_of_resolve (resolve_target_of_file h)]
  exact halike.device?_eq

end FileTree

namespace CommandLine

open FileTree

variable {tree tree' before after : FileTree} {artifact : Artifact} {artifacts rest : List Artifact}
  {names others : List Text} {printed errors : Text} {outcome : Outcome}

theorem write_of_hasParents (hparents : HasParents tree artifact.path)
    (h : tree.write artifact.path (Text.toBytes artifact.contents) = (.ok (), tree')) :
    artifact.write tree = (.ok (), tree') := by
  unfold Artifact.write
  rw [createParents_of_hasParents hparents]
  simp only [h]
  rfl

theorem exists_writeArtifacts_cons (h : artifact.write tree = (.ok (), tree'))
    (printed errors : Text) (rest : List Artifact) :
    ∃ out err, writeArtifacts tree printed errors (artifact :: rest) =
      writeArtifacts tree' out err rest := by
  rw [writeArtifacts, h]
  exact ⟨_, _, rfl⟩

/-- An artifact whose directories are there, and that goes into what is at a place. -/
structure Receives (tree : FileTree) (artifact : Artifact) (names : List Text) : Prop where
  parents : HasParents tree artifact.path
  accepts : ∃ node, tree.resolve .file artifact.path = .ok (.found names node) ∧
    node.Accepts (Text.toBytes artifact.contents)

namespace Receives

theorem of_keeps (hkeeps : Keeps before after) (h : Receives before artifact names) :
    Receives after artifact names := by
  obtain ⟨node, hfound, haccepts⟩ := h.accepts
  obtain ⟨node', hfound', halike⟩ := exists_resolve_of_keeps hkeeps hfound
  exact ⟨h.parents.of_keeps hkeeps, node', hfound', haccepts.of_alike halike⟩

theorem eq_names (h : Receives tree artifact names) (h' : Receives tree artifact others) :
    names = others := by
  obtain ⟨node, hfound, -⟩ := h.accepts
  obtain ⟨node', hfound', -⟩ := h'.accepts
  have hplace := Except.ok.inj (hfound.symm.trans hfound')
  exact (Place.found.inj hplace).1

theorem exists_get? (h : Receives tree artifact names) :
    ∃ node, tree.root.get? names = some node ∧ ¬ node.isDir := by
  obtain ⟨node, hfound, haccepts⟩ := h.accepts
  exact ⟨node, isIn_of_resolve hfound, haccepts.not_isDir⟩

theorem write_eq (h : Receives tree artifact names) :
    artifact.write tree = (.ok (), tree.store names (Text.toBytes artifact.contents)) := by
  obtain ⟨node, hfound, haccepts⟩ := h.accepts
  exact write_of_hasParents h.parents (write_of_accepts hfound haccepts)

/-- What writing prints does not change while the tree grows. -/
theorem printedBy_eq (h : Receives before artifact names) (hkeeps : Keeps before after) :
    printedBy after artifact = printedBy before artifact := by
  obtain ⟨node, hfound, -⟩ := h.accepts
  unfold printedBy
  rw [createParents_of_hasParents h.parents,
    createParents_of_hasParents (h.parents.of_keeps hkeeps), device?_of_keeps hkeeps hfound]

theorem writeArtifacts_cons (h : Receives tree artifact names) (printed errors : Text)
    (rest : List Artifact) :
    writeArtifacts tree printed errors (artifact :: rest) =
      writeArtifacts (tree.store names (Text.toBytes artifact.contents))
        (printed ++ (printedBy tree artifact).1 ++
          ("Wrote ".toList ++ artifact.path.text ++ ['\n']))
        (errors ++ (printedBy tree artifact).2) rest := by
  rw [writeArtifacts, h.write_eq]

end Receives

/-- What is left where an artifact was written. -/
structure Written (before : FileTree) (artifact : Artifact) (names : List Text)
    (after : FileTree) : Prop where
  keeps : Keeps before after
  receives : Receives after artifact names
  holds : ∃ node, after.root.get? names = some node ∧ node.Holds (Text.toBytes artifact.contents)
  printed : printedBy after artifact = printedBy before artifact
  leaves : ∀ others node, others ≠ names → before.root.get? others = some node → ¬ node.isDir →
    after.root.get? others = some node
  adds : ∀ others node, after.root.get? others = some node → ¬ node.isDir →
    before.root.get? others = some node ∨
      others = names ∧ node.Holds (Text.toBytes artifact.contents)
  sound : before.IsSound → after.IsSound

/-- An artifact that was written went to its path when the directories above it were there. -/
theorem exists_ready_of_write (h : artifact.write tree = (.ok (), tree')) :
    ∃ ready, tree.createParents artifact.path = (.ok (), ready) ∧
      ready.write artifact.path (Text.toBytes artifact.contents) = (.ok (), tree') := by
  unfold Artifact.write at h
  split at h
  · cases h
  · next ready hmade =>
    cases hwrite : ready.write artifact.path (Text.toBytes artifact.contents) with
    | mk written after =>
      rw [hwrite] at h
      obtain ⟨hwritten, rfl⟩ := Prod.mk.inj h
      obtain rfl : written = .ok () := mapError_eq_ok_iff.1 hwritten
      exact ⟨ready, hmade, hwrite⟩

theorem Receives.written (h : Receives tree artifact names) :
    Written tree artifact names (tree.store names (Text.toBytes artifact.contents)) := by
  have hkeeps := keeps_store tree names (Text.toBytes artifact.contents)
  obtain ⟨node, hfound, haccepts⟩ := h.accepts
  exact ⟨hkeeps, h.of_keeps hkeeps, get?_store_self (isIn_of_resolve hfound) haccepts,
    h.printedBy_eq hkeeps,
    fun others node hne hnode hleaf => get?_store_of_ne hne hnode hleaf _,
    fun others node hnode hleaf => get?_of_store hnode hleaf, fun hsound => hsound.store _ _⟩

theorem written_of_free (hparents : HasParents tree artifact.path)
    (hfree : tree.resolve .file artifact.path = .ok (.free names)) :
    Written tree artifact names
      (tree.put names (.file (Text.toBytes artifact.contents) false)) := by
  let file : Node := .file (Text.toBytes artifact.contents) false
  obtain ⟨hnone, dir, name, hnames, hdir⟩ := isIn_of_resolve hfree
  obtain ⟨entries, hentries⟩ := any_isDir_iff.1 hdir
  have hkeeps : Keeps tree (tree.put names file) :=
    keeps_put fun old hold => by simp [hnone] at hold
  have hnode : (tree.put names file).root.get? names = some file := by
    rw [hnames]
    exact Node.get?_put_append_singleton hentries name file
  have hfound : (tree.put names file).resolve .file artifact.path = .ok (.found names file) :=
    resolve_of_keeps hkeeps hfree (.free hnode rfl)
  have hparents' := hparents.of_keeps hkeeps
  have hprinted : printedBy (tree.put names file) artifact = printedBy tree artifact := by
    unfold printedBy
    rw [createParents_of_hasParents hparents, createParents_of_hasParents hparents',
      device?_of_resolve (resolve_target_of_file hfound),
      device?_of_resolve (resolve_target_of_file hfree)]
    rfl
  refine ⟨hkeeps, ⟨hparents', file, hfound, trivial⟩, ⟨file, hnode, rfl⟩, hprinted,
    fun others node _ hnode hleaf => leaves_put hnone hnode hleaf,
    fun others node hnode hleaf => ?_,
    fun hsound => hsound.put (.file _ _) (hsound.isName_of_free hfree)⟩
  rcases Node.get?_of_put (.file _ _) hnode hleaf with ⟨rfl, rfl⟩ | hold
  · exact .inr ⟨rfl, rfl⟩
  · exact .inl hold

/-- The directories that are made first are nothing that is written. -/
theorem Written.of_createParents {ready : FileTree}
    (hmade : tree.createParents artifact.path = (.ok (), ready))
    (h : Written ready artifact names tree') : Written tree artifact names tree' := by
  have hgrows := grows_createParents hmade
  have hprinted : printedBy ready artifact = printedBy tree artifact := by
    unfold printedBy
    rw [hmade, createParents_of_hasParents (hasParents_of_createParents hmade)]
  exact ⟨hgrows.toKeeps.trans h.keeps, h.receives, h.holds, h.printed.trans hprinted,
    fun others node hne hnode hleaf =>
      h.leaves others node hne (hgrows.leaves others node hnode hleaf) hleaf,
    fun others node hnode hleaf =>
      (h.adds others node hnode hleaf).imp_left fun hold => hgrows.adds others node hold hleaf,
    fun hsound => h.sound (hgrows.sound hsound)⟩

theorem exists_written (h : artifact.write tree = (.ok (), tree')) :
    ∃ names, Written tree artifact names tree' := by
  obtain ⟨ready, hmade, hwrite⟩ := exists_ready_of_write h
  have hparents : HasParents ready artifact.path := hasParents_of_createParents hmade
  obtain ⟨names, node, hfound, haccepts, rfl⟩ | ⟨names, hfree, rfl⟩ := write_cases hwrite
  · have hreceives : Receives ready artifact names := ⟨hparents, node, hfound, haccepts⟩
    exact ⟨names, hreceives.written.of_createParents hmade⟩
  · exact ⟨names, (written_of_free hparents hfree).of_createParents hmade⟩

/-- What is left where all of some artifacts were written. -/
structure Settled (before : FileTree) (artifacts : List Artifact) (after : FileTree) : Prop where
  keeps : Keeps before after
  receives : ∀ artifact ∈ artifacts, ∃ names, Receives after artifact names
  leaves : ∀ names node, before.root.get? names = some node → ¬ node.isDir →
    (∀ artifact ∈ artifacts, ¬ Receives after artifact names) → after.root.get? names = some node
  adds : ∀ names node, after.root.get? names = some node → ¬ node.isDir →
    before.root.get? names = some node ∨
      ∃ artifact ∈ artifacts, Receives after artifact names ∧
        node.Holds (Text.toBytes artifact.contents)
  sound : before.IsSound → after.IsSound

theorem writeArtifacts_cons_of_exit
    (h : writeArtifacts tree printed errors (artifact :: rest) = (outcome, tree'))
    (hexit : outcome.exit = 0) :
    ∃ next, artifact.write tree = (.ok (), next) ∧
      writeArtifacts next
        (printed ++ (printedBy tree artifact).1 ++
          ("Wrote ".toList ++ artifact.path.text ++ ['\n']))
        (errors ++ (printedBy tree artifact).2) rest = (outcome, tree') := by
  rw [writeArtifacts] at h
  cases hwrite : artifact.write tree with
  | mk written next =>
    rw [hwrite] at h
    cases written with
    | error fault =>
      obtain ⟨rfl, -⟩ := Prod.mk.inj h
      cases hexit
    | ok => exact ⟨next, rfl, h⟩

theorem settled_of_writeArtifacts
    (h : writeArtifacts tree printed errors artifacts = (outcome, tree'))
    (hexit : outcome.exit = 0) : Settled tree artifacts tree' := by
  induction artifacts generalizing tree printed errors with
  | nil =>
    obtain ⟨-, rfl⟩ := Prod.mk.inj h
    exact ⟨.refl tree, by simp, fun _ _ hnode _ _ => hnode, fun _ _ hnode _ => .inl hnode, id⟩
  | cons artifact rest ih =>
    obtain ⟨next, hwrite, hrest⟩ := writeArtifacts_cons_of_exit h hexit
    obtain ⟨names, hwritten⟩ := exists_written hwrite
    have hsettled := ih hrest
    have hreceives := hwritten.receives.of_keeps hsettled.keeps
    refine ⟨hwritten.keeps.trans hsettled.keeps, ?_, fun others node hnode hleaf hnot => ?_,
      fun others node hnode hleaf => ?_, fun hsound => hsettled.sound (hwritten.sound hsound)⟩
    · exact List.forall_mem_cons.2 ⟨⟨names, hreceives⟩, hsettled.receives⟩
    · obtain ⟨hnotHere, hnotLater⟩ := List.forall_mem_cons.1 hnot
      have hne : others ≠ names := by
        rintro rfl
        exact hnotHere hreceives
      have hkept := hwritten.leaves others node hne hnode hleaf
      exact hsettled.leaves others node hkept hleaf hnotLater
    · rcases hsettled.adds others node hnode hleaf with hnext | ⟨later, hmem, hplace, hholds⟩
      · refine (hwritten.adds others node hnext hleaf).imp_right ?_
        rintro ⟨rfl, hholds⟩
        exact ⟨artifact, List.mem_cons_self, hreceives, hholds⟩
      · exact .inr ⟨later, List.mem_cons_of_mem _ hmem, hplace, hholds⟩

/-- What a file holds does not matter to artifacts of which one replaces it. -/
theorem writeArtifacts_store
    (hreceives : ∀ artifact ∈ artifacts, ∃ others, Receives tree artifact others)
    (hlater : ∃ artifact ∈ artifacts, Receives tree artifact names) (bytes : ByteArray) :
    writeArtifacts (tree.store names bytes) printed errors artifacts =
      writeArtifacts tree printed errors artifacts := by
  induction artifacts generalizing tree printed errors with
  | nil => simp at hlater
  | cons artifact rest ih =>
    obtain ⟨⟨others, hhere⟩, hrest⟩ := List.forall_mem_cons.1 hreceives
    have hkeeps := keeps_store tree names bytes
    have hkeepsHere := keeps_store tree others (Text.toBytes artifact.contents)
    rw [hhere.writeArtifacts_cons, (hhere.of_keeps hkeeps).writeArtifacts_cons,
      hhere.printedBy_eq hkeeps]
    by_cases hothers : others = names
    · rw [hothers, store_store]
    · -- The artifact that replaces it comes later, and this one can be written before or after.
      have hlaterRest : ∃ artifact ∈ rest, Receives tree artifact names := by
        obtain ⟨later, hmem, hnames⟩ := hlater
        obtain rfl | hmem := List.mem_cons.1 hmem
        · exact absurd (hhere.eq_names hnames) hothers
        · exact ⟨later, hmem, hnames⟩
      obtain ⟨later, hmem, hnames⟩ := hlaterRest
      obtain ⟨node, hnode, hleaf⟩ := hnames.exists_get?
      obtain ⟨former, hformer, hformerLeaf⟩ := hhere.exists_get?
      rw [store_comm (Ne.symm hothers) hnode hleaf hformer hformerLeaf]
      refine ih (fun artifact hartifact => ?_) ⟨later, hmem, hnames.of_keeps hkeepsHere⟩
      obtain ⟨place, hplace⟩ := hrest artifact hartifact
      exact ⟨place, hplace.of_keeps hkeepsHere⟩

/-- Writing artifacts again prints the same and changes nothing. -/
theorem writeArtifacts_again
    (h : writeArtifacts tree printed errors artifacts = (outcome, tree'))
    (hexit : outcome.exit = 0) :
    writeArtifacts tree' printed errors artifacts = (outcome, tree') := by
  induction artifacts generalizing tree printed errors with
  | nil =>
    obtain ⟨rfl, -⟩ := Prod.mk.inj h
    rfl
  | cons artifact rest ih =>
    obtain ⟨next, hwrite, hrest⟩ := writeArtifacts_cons_of_exit h hexit
    obtain ⟨names, hwritten⟩ := exists_written hwrite
    have hsettled := settled_of_writeArtifacts hrest hexit
    have hreceives := hwritten.receives.of_keeps hsettled.keeps
    have hprinted : printedBy tree' artifact = printedBy tree artifact :=
      (hwritten.receives.printedBy_eq hsettled.keeps).trans hwritten.printed
    rw [hreceives.writeArtifacts_cons, hprinted]
    by_cases hlater : ∃ later ∈ rest, Receives tree' later names
    · -- Two artifacts of one place: the earlier comes back until the later is written over it.
      rw [writeArtifacts_store hsettled.receives hlater, ih hrest]
    · -- Nothing was written over the artifact, so that it is in its place.
      obtain ⟨node, hnode, hholds⟩ := hwritten.holds
      have hkept : tree'.root.get? names = some node := by
        refine hsettled.leaves names node hnode hholds.not_isDir fun later hmem hnames => ?_
        exact hlater ⟨later, hmem, hnames⟩
      rw [store_of_holds hkept hholds, ih hrest]

end CommandLine

end Optable
