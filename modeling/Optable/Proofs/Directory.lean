import Optable.Proofs.Growth
import Optable.Proofs.Splitting
/-!
# What directories hold

What stands at the end of a path of names is an entry of the directory that the path without its
last name leads to.  In a sound tree the entries of a directory have names that paths can spell, and
no name comes twice.
-/

namespace Optable.FileTree

variable {tree : FileTree} {aim : Aim} {place names found : List Text} {name : Text} {p : Path}
  {node : Node} {result : Place}

theorem resolve_pathOf_of_way (hplace : ∀ name ∈ place, IsName name)
    (hshort : Text.byteSize (pathOf place).text ≤ pathLimit)
    (h : Way tree.root .target linkLimit [] ([] :: place) result) :
    tree.resolve .target (pathOf place) = .ok result := by
  refine resolve_eq_ok_iff.2 ⟨nul_notMem_pathOf hplace, hshort, ?_⟩
  rw [follow_of_isAbsolute (isAbsolute_pathOf _)]
  by_cases hnil : place = []
  · subst hnil
    show walk tree.root .target linkLimit [] [[], []] = _
    rw [walk_nil_cons h.any_isDir]
    exact walk_of_way h
  · rw [splitOn_pathOf hplace hnil]
    exact walk_of_way h

theorem resolve_pathOf (hplace : ∀ name ∈ place, IsName name) (hnil : place ≠ [])
    (hshort : Text.byteSize (pathOf place).text ≤ pathLimit)
    (hnode : tree.root.get? place = some node) (hlink : ∀ target, node ≠ .link target) :
    tree.resolve .target (pathOf place) = .ok (.found place node) := by
  have hbelow : tree.root.get? ([] ++ place) = some node := hnode
  obtain ⟨entries, hroot⟩ := Node.exists_dir_of_get?_append hbelow hnil
  have hway : walk tree.root .target linkLimit [] place = .ok (.found place node) := by
    have hwalk : walk tree.root .target linkLimit [] (place ++ []) =
        walk tree.root .target linkLimit ([] ++ place) [] :=
      walk_names hplace hbelow hlink (by decide) fun h => Aim.noConfusion h
    rw [List.append_nil, List.nil_append] at hwalk
    rw [hwalk, walk_nil, hnode]
  refine resolve_pathOf_of_way hplace hshort ?_
  exact .stay (any_isDir_iff.2 ⟨entries, hroot⟩) rfl (way_of_walk hway)

/-- What is found behind a place is found through a directory there. -/
theorem exists_resolve_above (hplace : ∀ name ∈ place, IsName name) (hnil : names ≠ [])
    (hshort : Text.byteSize (pathOf place).text ≤ pathLimit)
    (h : Way tree.root aim linkLimit [] ([] :: place ++ names) (.found found node)) :
    ∃ mid entries left, tree.resolve .target (pathOf place) = .ok (.found mid (.dir entries)) ∧
      Way tree.root aim left mid names (.found found node) := by
  obtain ⟨left, -, mid, entries, hmid, hbehind, -⟩ := h.splits hnil
  exact ⟨mid, entries, left, resolve_pathOf_of_way hplace hshort hmid, hbehind⟩

theorem occupied_iff : tree.occupied p ↔
    ∃ result, tree.resolve .entry p = .ok result ∧ result.node? ≠ none := by
  unfold occupied
  cases tree.resolve .entry p <;> simp [Except.toOption, Option.isSome_iff_ne_none]

theorem occupied_of_node? (h : tree.node? p ≠ none) : tree.occupied p := by
  unfold node? at h
  cases hresult : tree.resolve .target p with
  | error e => simp [hresult, Except.toOption] at h
  | ok result =>
    rw [hresult] at h
    obtain ⟨result', hfound', hresult'⟩ := resolve_entry_of_target hresult h
    exact occupied_iff.2 ⟨result', hresult', hfound'⟩

theorem occupied_of_isDir (h : tree.isDir p) : tree.occupied p := by
  refine occupied_of_node? fun hnone => ?_
  rw [isDir, hnone] at h
  cases h

theorem occupied_of_isFile (h : tree.isFile p) : tree.occupied p := by
  refine occupied_of_node? fun hnone => ?_
  rw [isFile, hnone] at h
  cases h

theorem isFile_iff : tree.isFile p ↔ ∃ names bytes executable,
    tree.resolve .target p = .ok (.found names (.file bytes executable)) := by
  unfold isFile node?
  cases tree.resolve .target p with
  | error e => simp [Except.toOption]
  | ok result =>
    cases result with
    | found place node =>
      refine Node.isFile_iff.trans ⟨?_, ?_⟩
      · rintro ⟨bytes, executable, rfl⟩
        exact ⟨place, bytes, executable, rfl⟩
      · rintro ⟨_, bytes, executable, ⟨⟩⟩
        exact ⟨bytes, executable, rfl⟩
    | free => simp [Except.toOption, Place.node?]
    | removed => exact iff_of_false Bool.false_ne_true (by rintro ⟨_, _, _, ⟨⟩⟩)

/-- The way to what stands behind a place. -/
theorem exists_way_of_occupied (hplace : ∀ name ∈ place, IsName name)
    (hrelative : p.isAbsolute = false) (h : tree.occupied ((pathOf place).join p)) :
    Text.byteSize (pathOf place).text ≤ pathLimit ∧
      ∃ found node, Way tree.root .entry linkLimit [] ([] :: place ++ p.text.splitOn '/')
        (.found found node) := by
  obtain ⟨result, hresult, hfound⟩ := occupied_iff.1 h
  obtain ⟨-, hlong, hfollow⟩ := resolve_eq_ok_iff.1 hresult
  obtain ⟨slash, -, htext⟩ := Path.exists_text_join (pathOf place) hrelative
  rw [follow_of_isAbsolute (Path.isAbsolute_join (isAbsolute_pathOf _)),
    text_join_pathOf hplace hrelative, splitOn_descent_append hplace, walk_eq_ok_iff] at hfollow
  refine ⟨Nat.le_trans (Text.byteSize_le_of_isPrefix ?_) hlong, ?_⟩
  · rw [htext, List.append_assoc]
    exact List.prefix_append _ _
  · cases result with
    | found found node => exact ⟨found, node, hfollow⟩
    | free => exact absurd rfl hfound
    | removed => exact absurd rfl hfollow.ne_removed

/-- What stands under a name behind a place is an entry of the directory there. -/
theorem mem_names_of_occupied (hplace : ∀ name ∈ place, IsName name)
    (hsegment : Path.Component.ofSegment? name = some (.name name)) (hslash : '/' ∉ name)
    (h : tree.occupied ((pathOf place).join ⟨name⟩)) : name ∈ tree.names (pathOf place) := by
  have hrelative : Path.isAbsolute ⟨name⟩ = false :=
    decide_eq_false fun hhead => hslash (List.mem_of_mem_head? hhead)
  obtain ⟨hshort, found, node, hway⟩ := exists_way_of_occupied hplace hrelative h
  rw [List.splitOn_eq_singleton hslash] at hway
  obtain ⟨mid, entries, left, hmid, hbehind⟩ :=
    exists_resolve_above hplace (List.cons_ne_nil _ _) hshort hway
  have hlookup : ∃ child, entries.lookup name = some child := by
    have hget := Node.get?_append_singleton (isIn_of_resolve hmid) name
    cases hbehind with
    | stay _ hstay => simp [hsegment] at hstay
    | up _ hup => simp [hsegment] at hup
    | link _ _ hchild => exact ⟨_, hget.symm.trans hchild⟩
    | follow _ _ hchild => exact ⟨_, hget.symm.trans hchild⟩
    | enter _ _ hchild => exact ⟨_, hget.symm.trans hchild⟩
  obtain ⟨child, hchild⟩ := hlookup
  obtain ⟨before, after, rfl, -⟩ := List.lookup_eq_some_iff.1 hchild
  have hentries : tree.names (pathOf place) = (before ++ (name, child) :: after).map Prod.fst := by
    rw [FileTree.names, node?, hmid]
    rfl
  simp [hentries]

/-- Above what a path of names leads to there are directories. -/
theorem isDir_of_occupied_append (hnames : ∀ name ∈ place ++ names, IsName name) (hnil : names ≠ [])
    (h : tree.occupied (pathOf (place ++ names))) : tree.isDir (pathOf place) := by
  obtain ⟨hplace, hbelow⟩ := List.forall_mem_append.1 hnames
  have hslash : ∀ name ∈ names, '/' ∉ name := fun name hname => (hbelow name hname).slash_notMem
  have hrelative : (List.intercalate ['/'] names).head? ≠ some '/' := by
    obtain ⟨name, rest, rfl⟩ := List.exists_cons_of_ne_nil hnil
    obtain ⟨c, cs, rfl⟩ := List.exists_cons_of_ne_nil (hbelow name List.mem_cons_self).ne_nil
    have hc : c ≠ '/' := fun hc => hslash _ List.mem_cons_self (by simp [hc])
    cases rest <;> simpa [List.intercalate_cons_cons] using hc
  rw [← join_pathOf hplace hnil hrelative] at h
  obtain ⟨hshort, found, node, hway⟩ :=
    exists_way_of_occupied hplace (by simpa [Path.isAbsolute] using hrelative) h
  rw [List.splitOn_intercalate '/' hslash hnil] at hway
  obtain ⟨mid, entries, -, hmid, -⟩ := exists_resolve_above hplace hnil hshort hway
  exact isDir_iff.2 ⟨.found mid (.dir entries), hmid, rfl⟩

theorem isDir_of_mem_names (h : name ∈ tree.names p) : tree.isDir p := by
  unfold FileTree.names at h
  unfold isDir
  split at h
  · next hnode =>
    rw [hnode]
    rfl
  · cases h

/-- The names in a directory are those of sound entries. -/
theorem exists_names_eq (hsound : tree.root.IsSound) (p : Path) :
    ∃ entries, (Node.dir entries).IsSound ∧ tree.names p = entries.map Prod.fst := by
  unfold FileTree.names
  split
  · next entries hnode =>
    refine ⟨entries, ?_, rfl⟩
    unfold node? at hnode
    cases hresult : tree.resolve .target p with
    | error e => simp [hresult, Except.toOption] at hnode
    | ok result =>
      rw [hresult] at hnode
      have hin := isIn_of_resolve hresult
      cases result with
      | found place node =>
        obtain rfl : node = .dir entries := Option.some.inj hnode
        exact (hsound.isSound_of_get? hin).1
      | free => cases hnode
      | removed =>
        obtain rfl : [] = entries := Node.dir.inj (Option.some.inj hnode)
        exact Node.isSound_dir_nil
  · exact ⟨[], Node.isSound_dir_nil, rfl⟩

theorem nodup_names (hsound : tree.root.IsSound) (p : Path) : (tree.names p).Nodup := by
  obtain ⟨entries, hentries, heq⟩ := exists_names_eq hsound p
  rw [heq]
  exact (Node.isSound_dir_iff.1 hentries).2.1

theorem isName_of_mem_names (hsound : tree.root.IsSound) (h : name ∈ tree.names p) :
    IsName name := by
  obtain ⟨entries, hentries, heq⟩ := exists_names_eq hsound p
  rw [heq] at h
  obtain ⟨e, he, rfl⟩ := List.mem_map.1 h
  exact (Node.isSound_dir_iff.1 hentries).1 e he

end Optable.FileTree
