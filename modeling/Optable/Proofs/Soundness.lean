import Optable.FileTree.Change
import Optable.Proofs.Canonical
/-!
# Trees that stay sound

What is put into a tree gets a name that was a segment of the path, or of the target of a link on
the way.  So a tree of sound nodes stays one, provided that the targets of its links can be spelled
too.
-/

namespace Optable

namespace Node

variable {root node : Node} {name other : Text} {names : List Text} {entries : List (Text × Node)}

theorem mem_map_fst_setEntry (h : other ∈ (setEntry name node entries).map Prod.fst) :
    other = name ∨ other ∈ entries.map Prod.fst := by
  induction entries with
  | nil => exact .inl (by simpa [setEntry] using h)
  | cons e entries ih =>
    obtain ⟨n, old⟩ := e
    rw [setEntry] at h
    split at h
    · exact .inr h
    · rw [List.map_cons] at h ⊢
      rcases List.mem_cons.1 h with rfl | h
      · exact .inr List.mem_cons_self
      · exact (ih h).imp_right (List.mem_cons_of_mem _)

theorem IsSound.setEntry (h : (Node.dir entries).IsSound) (hname : IsName name)
    (hnode : node.IsSound) : (Node.dir (setEntry name node entries)).IsSound := by
  induction entries with
  | nil => exact isSound_dir_cons.2 ⟨⟨hname, by simp⟩, hnode, isSound_dir_nil⟩
  | cons e entries ih =>
    obtain ⟨n, old⟩ := e
    obtain ⟨⟨hn, hnew⟩, hold, hentries⟩ := isSound_dir_cons.1 h
    rw [Node.setEntry]
    split
    · exact isSound_dir_cons.2 ⟨⟨hn, hnew⟩, hnode, hentries⟩
    · next hne =>
      refine isSound_dir_cons.2 ⟨⟨hn, fun hmem => ?_⟩, hold, ih hentries⟩
      exact (mem_map_fst_setEntry hmem).elim hne hnew

theorem IsSound.put (h : root.IsSound) (hnode : node.IsSound)
    (hnames : ∀ name ∈ names, IsName name) :
    (put node root names).IsSound := by
  induction names generalizing root with
  | nil => rwa [put_nil]
  | cons name rest ih =>
    obtain ⟨hname, hrest⟩ := List.forall_mem_cons.1 hnames
    by_cases hroot : root.isDir
    · obtain ⟨entries, rfl⟩ := isDir_iff.1 hroot
      cases hchild : entries.lookup name with
      | some child =>
        have hget : (Node.dir entries).get? [name] = some child := by simp [hchild]
        rw [put_cons_of_lookup hchild]
        exact h.setEntry hname (ih (h.isSound_of_get? hget).1 hrest)
      | none =>
        by_cases hnil : rest = []
        · rw [hnil, put_singleton]
          exact h.setEntry hname hnode
        · rwa [put_cons_of_lookup_none hchild hnil]
    · rwa [put_of_not_isDir hroot (List.cons_ne_nil _ _)]

theorem IsFresh.isSound (h : node.IsFresh) : node.IsSound := by
  cases h with
  | file bytes executable => exact .file bytes executable
  | emptyDir => exact isSound_dir_nil

end Node

namespace FileTree

/-- A tree of sound nodes, with links whose targets hold no NUL. -/
structure IsSound (tree : FileTree) : Prop where
  root : tree.root.IsSound
  links : tree.root.AllLinks fun target => '\x00' ∉ target.text

variable {tree : FileTree} {root node : Node} {aim : Aim} {links : Nat}
  {place names parent segments rest : List Text} {segment : Text} {p : Path} {result : Place}

/-- Whether the segments can be names as far as their characters go. -/
def AreSegments (segments : List Text) : Prop := ∀ s ∈ segments, '/' ∉ s ∧ '\x00' ∉ s

theorem areSegments_splitOn {t : Text} (h : '\x00' ∉ t) : AreSegments (t.splitOn '/') := by
  refine fun s hs => ⟨Path.slash_notMem_of_mem_splitOn hs, fun hnul => h ?_⟩
  rw [List.splitOn_eq_splitOnP] at hs
  exact (Text.infix_of_mem_splitOnP hs).subset hnul

/-- The names of a free place are those of the directory, and a segment. -/
theorem Way.isName_of_free (h : Way root aim links place segments (.free names))
    (hsound : root.IsSound)
    (hlinks : root.AllLinks fun target => '\x00' ∉ target.text)
    (hsegments : AreSegments segments) : ∀ name ∈ names, IsName name := by
  generalize hresult : Place.free names = result at h
  induction h with
  | here => cases hresult
  | stay _ _ _ ih => exact ih (List.forall_mem_cons.1 hsegments).2 hresult
  | up _ _ _ ih => exact ih (List.forall_mem_cons.1 hsegments).2 hresult
  | free hdir hstep =>
    cases hresult
    obtain ⟨entries, hentries⟩ := any_isDir_iff.1 hdir
    obtain ⟨hslash, hnul⟩ := hsegments _ List.mem_cons_self
    exact List.forall_mem_append.2
      ⟨hsound.isName hentries, by simpa using ⟨hstep.name, hslash, hnul, hstep.short⟩⟩
  | link => cases hresult
  | follow _ _ hnode _ _ ih =>
    refine ih (List.forall_mem_append.2 ⟨?_, (List.forall_mem_cons.1 hsegments).2⟩) hresult
    exact areSegments_splitOn (hlinks _ _ hnode)
  | enter _ _ _ _ _ _ ih => exact ih (List.forall_mem_cons.1 hsegments).2 hresult

theorem areSegments_of_leave? (h : leave? parent segments = some (.place names rest))
    (hsegments : AreSegments segments) : AreSegments rest := by
  induction segments with
  | nil => cases h
  | cons segment segments ih =>
    obtain ⟨-, hbelow⟩ := List.forall_mem_cons.1 hsegments
    rw [leave?] at h
    split at h
    · exact ih h hbelow
    · cases h
      exact hbelow
    · cases h

theorem areSegments_of_departure? {current : CurrentDirectory}
    (h : departure? current p = some (.place names segments)) (hp : '\x00' ∉ p.text) :
    AreSegments segments := by
  have hsegments := areSegments_splitOn hp
  unfold departure? at h
  split at h
  · cases h
  · split at h
    · cases h
      exact hsegments
    · split at h
      · cases h
        exact hsegments
      · exact areSegments_of_leave? h hsegments

theorem IsSound.isName_of_free (hsound : tree.IsSound)
    (h : tree.resolve aim p = .ok (.free names)) : ∀ name ∈ names, IsName name := by
  obtain ⟨hnul, -, hfollow⟩ := resolve_eq_ok_iff.1 h
  obtain ⟨d, hd, hleads⟩ := follow_eq_ok_iff.1 hfollow
  cases d with
  | place =>
    exact Way.isName_of_free hleads hsound.root hsound.links (areSegments_of_departure? hd hnul)
  | removed => cases hleads

theorem IsSound.put (hsound : tree.IsSound) (hnode : node.IsFresh)
    (hnames : ∀ name ∈ names, IsName name) : (tree.put names node).IsSound where
  root := hsound.root.put hnode.isSound hnames
  links place target h := by
    rcases Node.get?_of_put hnode h Bool.false_ne_true with ⟨-, rfl⟩ | hold
    · cases hnode
    · exact hsound.links place target hold

end FileTree
end Optable
