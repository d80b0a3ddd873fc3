import Optable.Generation
import Optable.Proofs.Soundness
/-!
# Trees that grow

Making directories and writing files takes nothing away.  A path that led to something still does
in a tree that has grown, and one that led to a free name leads to what was put there.  So the
directories above a path are made once: where they are, making them again changes nothing.  Nothing
but directories is added on the way.
-/

namespace Optable.FileTree

/-- Whether a path of an aim may end at a node without more segments. -/
def Aim.EndsAt : Aim → Node → Prop
  | .entry, node => node.isDir
  | .target, node => node.isDir
  | .file, node => node.isFile
  | .spelling, _ => False

/-- What a place is in a tree that has grown. -/
inductive Place.Becomes (aim : Aim) (after : Node) : Place → Place → Prop
  | found {names node node'} (hnode : after.get? names = some node') :
    Becomes aim after (.found names node) (.found names node')
  | free {names node'} (hnode : after.get? names = some node') (hends : aim.EndsAt node') :
    Becomes aim after (.free names) (.found names node')
  | removed : Becomes aim after .removed .removed

section Way

variable {before after root node : Node} {aim : Aim} {links : Nat}
  {place names segments rest : List Text} {result result' : Place}

theorem any_isDir_of_keeps (hkeeps : before.Keeps after)
    (hdir : (before.get? place).any Node.isDir) : (after.get? place).any Node.isDir := by
  obtain ⟨entries, hentries⟩ := any_isDir_iff.1 hdir
  obtain ⟨node', hnode', halike⟩ := hkeeps place _ hentries
  rw [hnode', Option.any_some, halike.isDir_eq]
  rfl

theorem Aim.EndsAt.ne_link (h : aim.EndsAt node) (target : Path) : node ≠ .link target := by
  rintro rfl
  cases aim <;> simp [Aim.EndsAt, Node.isDir, Node.isFile] at h

theorem Aim.EndsAt.ne_spelling (h : aim.EndsAt node) : aim ≠ .spelling := by
  rintro rfl
  exact h

/-- A name for a new file has no slash after it. -/
theorem IsStep.eq_nil_or_isDir {segment : Text} (hstep : IsStep aim place segment rest)
    (hrest : rest.all (·.isEmpty)) (hends : aim.EndsAt node) : rest = [] ∨ node.isDir := by
  cases aim with
  | entry => exact .inr hends
  | target => exact .inr hends
  | file =>
    have hleadsOn := hstep.leadsOn
    simp only [isEndSlash, hrest] at hleadsOn
    exact .inl (by simpa using hleadsOn)
  | spelling => exact absurd rfl hends.ne_spelling

/-- Slashes after the name of a directory lead to the directory. -/
theorem Way.of_all_isEmpty (hnode : root.get? names = some node) (hends : rest = [] ∨ node.isDir)
    (hrest : rest.all (·.isEmpty)) : Way root aim links names rest (.found names node) := by
  induction rest with
  | nil => exact .here hnode
  | cons segment rest ih =>
    have hdir : node.isDir := hends.resolve_left (List.cons_ne_nil _ _)
    obtain ⟨hsegment, hrest⟩ : segment = [] ∧ rest.all (·.isEmpty) := by simpa using hrest
    subst hsegment
    exact .stay (by rw [hnode]; exact hdir) rfl (ih (.inr hdir) hrest)

theorem Way.of_keeps (hkeeps : before.Keeps after)
    (h : Way before aim links place segments result) (hbecomes : result.Becomes aim after result') :
    Way after aim links place segments result' := by
  induction h with
  | here hnode =>
    cases hbecomes with
    | found hnode' => exact .here hnode'
  | stay hdir hsegment _ ih =>
    exact .stay (any_isDir_of_keeps hkeeps hdir) hsegment (ih hbecomes)
  | up hdir hsegment _ ih => exact .up (any_isDir_of_keeps hkeeps hdir) hsegment (ih hbecomes)
  | free hdir hstep _ hrest =>
    cases hbecomes with
    | free hnode' hends =>
      -- The name is not free any more, so that it is entered, and only slashes may be left.
      exact .enter (any_isDir_of_keeps hkeeps hdir) hstep hnode' hends.ne_link
        (by simp [hends.ne_spelling])
        (.of_all_isEmpty hnode' (hstep.eq_nil_or_isDir hrest hends) hrest)
  | link hdir hstep hnode haim =>
    obtain ⟨node', hlink, halike⟩ := hkeeps _ _ hnode
    cases halike
    cases hbecomes with
    | found hnode' =>
      obtain rfl := Option.some.inj (hlink.symm.trans hnode')
      exact .link (any_isDir_of_keeps hkeeps hdir) hstep hlink haim
  | follow hdir hstep hnode hon _ ih =>
    obtain ⟨node', hlink, halike⟩ := hkeeps _ _ hnode
    cases halike
    exact .follow (any_isDir_of_keeps hkeeps hdir) hstep hlink hon (ih hbecomes)
  | enter hdir hstep hnode hlink hspelled _ ih =>
    obtain ⟨node', hnode', halike⟩ := hkeeps _ _ hnode
    have hlink' : ∀ target, node' ≠ .link target := by
      rintro target rfl
      cases halike
      exact hlink target rfl
    exact .enter (any_isDir_of_keeps hkeeps hdir) hstep hnode' hlink' hspelled (ih hbecomes)

end Way

/-- Wherever a tree has a node, the other one has a node of that kind, and the current directory is
the same. -/
structure Keeps (before after : FileTree) : Prop where
  root : before.root.Keeps after.root
  current : after.current = before.current

variable {before after tree tree' : FileTree} {aim : Aim} {p : Path} {result result' : Place}
  {made : Except AccessError Unit}

theorem Keeps.refl (tree : FileTree) : Keeps tree tree := ⟨.refl tree.root, rfl⟩

theorem Keeps.trans {a b c : FileTree} (hab : Keeps a b) (hbc : Keeps b c) : Keeps a c :=
  ⟨hab.root.trans hbc.root, hbc.current.trans hab.current⟩

theorem follow_of_keeps (hkeeps : Keeps before after) (h : before.follow aim p = .ok result)
    (hbecomes : result.Becomes aim after.root result') : after.follow aim p = .ok result' := by
  obtain ⟨d, hd, hleads⟩ := follow_eq_ok_iff.1 h
  refine follow_eq_ok_iff.2 ⟨d, by rw [hkeeps.current, hd], ?_⟩
  cases d with
  | place => exact Way.of_keeps hkeeps.root hleads hbecomes
  | removed =>
    obtain rfl : result = .removed := hleads
    cases hbecomes
    rfl

theorem resolve_of_keeps (hkeeps : Keeps before after) (h : before.resolve aim p = .ok result)
    (hbecomes : result.Becomes aim after.root result') : after.resolve aim p = .ok result' := by
  obtain ⟨hnul, hlong, hfollow⟩ := resolve_eq_ok_iff.1 h
  exact resolve_eq_ok_iff.2 ⟨hnul, hlong, follow_of_keeps hkeeps hfollow hbecomes⟩

theorem exists_resolve_of_keeps {names : List Text} {node : Node} (hkeeps : Keeps before after)
    (h : before.resolve aim p = .ok (.found names node)) :
    ∃ node', after.resolve aim p = .ok (.found names node') ∧ node.Alike node' := by
  obtain ⟨node', hnode', halike⟩ := hkeeps.root names node (isIn_of_resolve h)
  exact ⟨node', resolve_of_keeps hkeeps h (.found hnode'), halike⟩

theorem isDir_iff : tree.isDir p ↔
    ∃ place, tree.resolve .target p = .ok place ∧ place.node?.any Node.isDir := by
  unfold isDir node?
  cases tree.resolve .target p <;> simp [Except.toOption]

theorem isDir_of_keeps (hkeeps : Keeps before after) (h : before.isDir p) : after.isDir p := by
  obtain ⟨place, hplace, hdir⟩ := isDir_iff.1 h
  cases place with
  | found names node =>
    obtain ⟨node', hnode', halike⟩ := exists_resolve_of_keeps hkeeps hplace
    have hnode : node.isDir := by simpa [Place.node?] using hdir
    exact isDir_iff.2 ⟨_, hnode', by simpa [Place.node?, halike.isDir_eq] using hnode⟩
  | free names => cases hdir
  | removed => exact isDir_iff.2 ⟨_, resolve_of_keeps hkeeps hplace .removed, rfl⟩

/-- The directory that the sources are named from stays where it is. -/
theorem canonical_of_keeps {q : Path} (hkeeps : Keeps before after)
    (h : before.canonical p = .ok q) : after.canonical p = .ok q := by
  have hcurrent : after.currentPath? = before.currentPath? := by
    simp only [currentPath?, hkeeps.current]
  unfold canonical at h ⊢
  rw [hcurrent]
  split at h
  · cases h
  · next hnul =>
    split at h
    · cases h
    · next hrelative =>
      split at h
      · next names node hfollow =>
        obtain ⟨node', hnode', -⟩ := hkeeps.root names node (isIn_of_follow hfollow)
        rw [if_neg hnul, if_neg hrelative, follow_of_keeps hkeeps hfollow (.found hnode')]
        exact h
      · cases h
      · cases h

theorem keeps_put {names : List Text} {node : Node}
    (h : ∀ old, tree.root.get? names = some old → ¬ old.isDir ∧ old.Alike node) :
    Keeps tree (tree.put names node) :=
  ⟨Node.keeps_put h, rfl⟩

theorem leaves_put {names others : List Text} {node found : Node}
    (h : tree.root.get? names = none) (hfound : tree.root.get? others = some found)
    (hleaf : ¬ found.isDir) : (tree.put names node).root.get? others = some found := by
  refine Node.get?_put_of_ne hfound hleaf (fun old hold => by simp [h] at hold) ?_ node
  rintro rfl
  simp [h] at hfound

/-- Besides, all that is not a directory is as it was, nothing else but directories is new, and
these have names that can be spelled. -/
structure Grows (before after : FileTree) : Prop extends Keeps before after where
  leaves : ∀ names node, before.root.get? names = some node → ¬ node.isDir →
    after.root.get? names = some node
  adds : ∀ names node, after.root.get? names = some node → ¬ node.isDir →
    before.root.get? names = some node
  sound : before.IsSound → after.IsSound

theorem Grows.refl (tree : FileTree) : Grows tree tree :=
  ⟨.refl tree, fun _ _ h _ => h, fun _ _ h _ => h, id⟩

theorem Grows.trans {a b c : FileTree} (hab : Grows a b) (hbc : Grows b c) : Grows a c where
  toKeeps := hab.toKeeps.trans hbc.toKeeps
  leaves names node h hleaf := hbc.leaves names node (hab.leaves names node h hleaf) hleaf
  adds names node h hleaf := hab.adds names node (hbc.adds names node h hleaf) hleaf
  sound h := hbc.sound (hab.sound h)

theorem grows_put {names : List Text} (h : tree.resolve aim p = .ok (.free names)) :
    Grows tree (tree.put names .emptyDir) where
  toKeeps := keeps_put fun old hold => by simp [(isIn_of_resolve h).1] at hold
  leaves _ _ hfound hleaf := leaves_put (isIn_of_resolve h).1 hfound hleaf
  adds others node hnode hleaf := by
    rcases Node.get?_of_put .emptyDir hnode hleaf with ⟨-, rfl⟩ | hold
    · exact absurd rfl hleaf
    · exact hold
  sound hsound := hsound.put .emptyDir (hsound.isName_of_free h)

section Directories

/-- The path under which a directory is made. -/
def bare (p : Path) : Path :=
  if (withoutEndSlashes p).text.isEmpty then p else withoutEndSlashes p

theorem bare_eq_self (h : p.text = ['/'] ∨ p.text.getLast? ≠ some '/') : bare p = p := by
  obtain ⟨t⟩ := p
  rcases h with h | h
  · obtain rfl : t = ['/'] := h
    rfl
  · have hhead : t.reverse.head? ≠ some '/' := by rwa [List.head?_reverse]
    have hstrip : withoutEndSlashes ⟨t⟩ = ⟨t⟩ := by
      unfold withoutEndSlashes
      cases hrev : t.reverse with
      | nil => simp [List.reverse_eq_nil_iff.1 hrev]
      | cons c back =>
        have hc : c ≠ '/' := by simpa [hrev] using hhead
        rw [List.dropWhile_cons_of_neg (by simpa using hc), ← hrev, List.reverse_reverse]
    rw [bare, hstrip, ite_self]

theorem bare_of_parent? {q : Path} (h : p.parent? = some q) : bare q = q := by
  apply bare_eq_self
  unfold Path.parent? at h
  split at h
  · cases h
  · split at h
    · cases h
      split
      · exact .inl rfl
      · exact .inr (by simp)
    · cases h
      refine .inr ?_
      rw [List.getLast?_reverse]
      exact Path.head?_dropEmptyEnd_ne _

/-- A directory is made at a free name, or nothing changes. -/
theorem createDir_cases (h : tree.createDir p = (made, tree')) :
    (∃ names, tree.resolve .entry (bare p) = .ok (.free names) ∧ made = .ok () ∧
      tree' = tree.put names .emptyDir) ∨
    ∃ e, made = .error e ∧ tree' = tree := by
  unfold createDir at h
  dsimp only at h
  split at h
  · next names hfree =>
    cases h
    exact .inl ⟨names, hfree, rfl, rfl⟩
  · cases h
    exact .inr ⟨_, rfl, rfl⟩
  · cases h
    exact .inr ⟨_, rfl, rfl⟩

theorem grows_createDir (h : tree.createDir p = (made, tree')) : Grows tree tree' := by
  obtain ⟨names, hfree, -, rfl⟩ | ⟨-, -, rfl⟩ := createDir_cases h
  · exact grows_put hfree
  · exact .refl _

theorem isDir_of_createDir (hbare : bare p = p) (h : tree.createDir p = (.ok (), tree')) :
    tree'.isDir p := by
  have hkeeps := (grows_createDir h).toKeeps
  obtain ⟨names, hfree, -, rfl⟩ | ⟨e, he, -⟩ := createDir_cases h
  · rw [hbare] at hfree
    obtain ⟨-, dir, name, rfl, hdir⟩ := isIn_of_resolve hfree
    obtain ⟨entries, hentries⟩ := any_isDir_iff.1 hdir
    have hnode : (tree.put (dir ++ [name]) .emptyDir).root.get? (dir ++ [name]) = some .emptyDir :=
      Node.get?_put_append_singleton hentries name _
    have hplace := resolve_of_keeps hkeeps (resolve_target hfree fun _ => rfl) (.free hnode rfl)
    exact isDir_iff.2 ⟨_, hplace, rfl⟩
  · cases he

/-- Where a directory is, none is made. -/
theorem createDir_of_isDir (hbare : bare p = p) (h : tree.isDir p) :
    tree.createDir p = (.error (.os .alreadyExists), tree) := by
  obtain ⟨place, hplace, hdir⟩ := isDir_iff.1 h
  have hfound : place.node? ≠ none := by
    intro hnone
    simp [hnone] at hdir
  obtain ⟨place', hfound', hplace'⟩ := resolve_entry_of_target hplace hfound
  rw [← hbare] at hplace'
  unfold createDir
  unfold bare at hplace'
  simp only [hplace']
  cases place' with
  | free names => exact absurd rfl hfound'
  | found names node => rfl
  | removed => rfl

/-- An error that a directory makes up for. -/
theorem isDir_of_ite_eq_ok {e : AccessError}
    (h : (if tree.isDir p then .ok () else .error e : Except AccessError Unit) = .ok ()) :
    tree.isDir p := by
  by_contra hnot
  rw [if_neg hnot] at h
  cases h

theorem grows_ensureDir (h : tree.ensureDir p = (made, tree')) : Grows tree tree' := by
  unfold ensureDir at h
  split at h
  · next hmade =>
    cases h
    exact grows_createDir hmade
  · next hmade =>
    cases h
    exact grows_createDir hmade

theorem isDir_of_ensureDir (hbare : bare p = p) (h : tree.ensureDir p = (.ok (), tree')) :
    tree'.isDir p := by
  unfold ensureDir at h
  split at h
  · next hmade =>
    cases h
    exact isDir_of_createDir hbare hmade
  · obtain ⟨hdir, rfl⟩ := Prod.mk.inj h
    exact isDir_of_ite_eq_ok hdir

theorem grows_createDirs (h : tree.createDirs p = (made, tree')) : Grows tree tree' := by
  fun_induction createDirs tree p generalizing made tree' with
  | case1 =>
    cases h
    exact .refl _
  | case2 _ _ _ _ hmade =>
    cases h
    exact grows_createDir hmade
  | case3 _ _ _ _ hmade _ _ _ habove ih =>
    exact ((grows_createDir hmade).trans (ih habove)).trans (grows_ensureDir h)
  | case4 _ _ _ _ hmade _ _ _ _ habove ih =>
    cases h
    exact (grows_createDir hmade).trans (ih habove)
  | case5 _ _ _ _ hmade =>
    cases h
    exact grows_createDir hmade
  | case6 _ _ _ _ _ _ hmade =>
    cases h
    exact grows_createDir hmade

/-- What has to be there above a path: nothing, or a directory. -/
def IsReady (tree : FileTree) (dir : Path) : Prop := dir.components.isEmpty ∨ tree.isDir dir

theorem IsReady.of_keeps (hkeeps : Keeps before after) (h : IsReady before p) : IsReady after p :=
  h.imp_right (isDir_of_keeps hkeeps)

theorem isReady_of_createDirs (hbare : bare p = p) (h : tree.createDirs p = (.ok (), tree')) :
    IsReady tree' p := by
  unfold createDirs at h
  split at h
  · next hempty => exact .inl hempty
  · split at h
    · split at h
      · cases h
      · split at h
        · exact .inr (isDir_of_ensureDir hbare h)
        · cases h
    · next hmade =>
      cases h
      exact .inr (isDir_of_createDir hbare hmade)
    · obtain ⟨hdir, rfl⟩ := Prod.mk.inj h
      exact .inr (isDir_of_ite_eq_ok hdir)

theorem createDirs_of_isReady (hbare : bare p = p) (h : IsReady tree p) :
    tree.createDirs p = (.ok (), tree) := by
  unfold createDirs
  by_cases hempty : p.components.isEmpty
  · rw [if_pos hempty]
  · have hdir : tree.isDir p := h.resolve_left hempty
    rw [if_neg hempty, createDir_of_isDir hbare hdir]
    simp only [hdir, if_true]

/-- Whether the directories above a path are there. -/
def HasParents (tree : FileTree) (p : Path) : Prop :=
  ∀ dir, p.parent? = some dir → dir.text ≠ [] → IsReady tree dir

theorem HasParents.of_isDir (dir : Path) (hparent : p.parent? = some dir) (hdir : tree.isDir dir) :
    HasParents tree p := by
  intro other hother _
  obtain rfl := Option.some.inj (hparent.symm.trans hother)
  exact .inr hdir

theorem HasParents.of_keeps (hkeeps : Keeps before after) (h : HasParents before p) :
    HasParents after p :=
  fun dir hdir hne => (h dir hdir hne).of_keeps hkeeps

theorem grows_createParents {made : Except Fault Unit} (h : tree.createParents p = (made, tree')) :
    Grows tree tree' := by
  unfold createParents at h
  split at h
  · cases h
    exact .refl tree
  · cases h
    exact grows_createDirs rfl

theorem hasParents_of_createParents (h : tree.createParents p = (.ok (), tree')) :
    HasParents tree' p := by
  intro dir hdir hne
  have hfilter : p.parent?.filter (!·.text.isEmpty) = some dir := by simp [hdir, hne]
  unfold createParents at h
  simp only [hfilter] at h
  obtain ⟨hmade, rfl⟩ := Prod.mk.inj h
  have hmade' : (tree.createDirs dir).1 = .ok () := mapError_eq_ok_iff.1 hmade
  exact isReady_of_createDirs (bare_of_parent? hdir) (Prod.ext hmade' rfl)

/-- Where the directories above a path are, none is made. -/
theorem createParents_of_hasParents (h : HasParents tree p) :
    tree.createParents p = (.ok (), tree) := by
  unfold createParents
  split
  · rfl
  · next dir hfilter =>
    obtain ⟨hdir, hne⟩ := Option.filter_eq_some_iff.1 hfilter
    have hready : IsReady tree dir := h dir hdir (by simpa using hne)
    rw [createDirs_of_isReady (bare_of_parent? hdir) hready]
    rfl

end Directories

end Optable.FileTree
