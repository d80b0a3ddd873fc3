import Mathlib.Data.List.Basic
import Optable.Proofs.Walk
/-!
# Two walks compared

Two walks that look at nodes of the same kind at every place take the same steps.  One theorem says
so for any relation between their results; its instances are a path with a slash doubled, a path
that is followed with fewer links, and two trees that list their directories in different orders.
-/

namespace Optable

/-- What two trees have at one place, if they differ at most in what their directories hold and in
which order they list it, and not in the names that are listed. -/
inductive Node.Twins : Option Node → Option Node → Prop
  | none : Twins none none
  | leaf {node : Node} (hleaf : ¬ node.isDir) : Twins (some node) (some node)
  | dir {entries entries' : List (Text × Node)}
    (hnames : (entries.map Prod.fst).Perm (entries'.map Prod.fst)) :
    Twins (some (.dir entries)) (some (.dir entries'))

theorem Node.Twins.refl (node : Option Node) : Twins node node := by
  rcases node with _ | _ | _ | _ | entries
  · exact .none
  · exact .leaf Bool.false_ne_true
  · exact .leaf Bool.false_ne_true
  · exact .leaf Bool.false_ne_true
  · exact .dir (.refl _)

section Entries

variable {name : Text} {node child child' : Node} {entries entries' : List (Text × Node)}

theorem Node.lookup_eq_some_iff_mem (hnodup : (entries.map Prod.fst).Nodup) :
    entries.lookup name = some node ↔ (name, node) ∈ entries := by
  induction entries with
  | nil => simp
  | cons e entries ih =>
    obtain ⟨other, old⟩ := e
    obtain ⟨hother, hnodup⟩ := List.nodup_cons.1 hnodup
    rw [List.lookup_cons, List.mem_cons, Prod.mk.injEq]
    by_cases hname : name = other
    · subst hname
      have hmem : (name, node) ∉ entries := fun h =>
        hother (List.mem_map.2 ⟨(name, node), h, rfl⟩)
      simp [hmem, eq_comm]
    · simp [hname, beq_eq_false_iff_ne.2 hname, ih hnodup]

/-- A directory that lists its entries in another order has the same below it. -/
theorem Node.twins_of_perm (hperm : entries.Perm entries') (hnodup : (entries.map Prod.fst).Nodup)
    (place : List Text) :
    Twins ((Node.dir entries).get? place) ((Node.dir entries').get? place) := by
  cases place with
  | nil => exact .dir (hperm.map _)
  | cons name place =>
    have hlookup : entries.lookup name = entries'.lookup name := by
      refine Option.ext fun node => ?_
      rw [lookup_eq_some_iff_mem hnodup,
        lookup_eq_some_iff_mem ((hperm.map Prod.fst).nodup_iff.1 hnodup), hperm.mem_iff]
    rw [get?_dir_cons, get?_dir_cons, hlookup]
    exact .refl _

/-- What holds of an entry holds of the directory. -/
theorem Node.twins_cons (h : ∀ place, Twins (child.get? place) (child'.get? place))
    (place : List Text) :
    Twins ((Node.dir ((name, child) :: entries)).get? place)
      ((Node.dir ((name, child') :: entries)).get? place) := by
  cases place with
  | nil => exact .dir (.refl _)
  | cons other place =>
    rw [get?_dir_cons, get?_dir_cons, List.lookup_cons, List.lookup_cons]
    split
    · exact h place
    · exact .refl _

end Entries

namespace FileTree

section Walks

variable {root root' : Node} {aim : Aim} {links links' : Nat} {place front rest rest' : List Text}
  {segment : Text} {R : Except OsError Place → Except OsError Place → Prop}

/-- Two walks do the same at a segment if what they do behind it is related.  Where the first one
has no link left it may stop, if that is related to whatever the second one does. -/
theorem walk_cons_rel (hrefl : ∀ x, R x x)
    (htwins : ∀ place, Node.Twins (root.get? place) (root'.get? place))
    (hall : rest.all (·.isEmpty) = rest'.all (·.isEmpty)) (haim : aim = .target ∨ rest = rest')
    (hon : ∀ place, R (walk root aim links place rest) (walk root' aim links' place rest'))
    (hstop : links = 0 → links' ≠ 0 → ∀ x, R (.error .tooManyLinks) x)
    (hstop' : links' = 0 → links = 0)
    (hfollow : ∀ left left', links = left + 1 → links' = left' + 1 → ∀ place front,
      R (walk root aim left place (front ++ rest)) (walk root' aim left' place (front ++ rest'))) :
    R (walk root aim links place (segment :: rest))
      (walk root' aim links' place (segment :: rest')) := by
  rw [walk_cons, walk_cons, walkSegment, walkSegment]
  generalize hnode : root.get? place = node, hnode' : root'.get? place = node'
  cases hnode ▸ hnode' ▸ htwins place with
  | none => exact hrefl _
  | @leaf node hleaf =>
    cases node with
    | dir entries => exact absurd rfl hleaf
    | _ => exact hrefl _
  | @dir entries entries' =>
    have hslash : (aim = .file && isEndSlash rest) = (aim = .file && isEndSlash rest') := by
      rcases haim with rfl | rfl <;> rfl
    have hlast : (rest.isEmpty && aim = .entry) = (rest'.isEmpty && aim = .entry) := by
      rcases haim with rfl | rfl
      · simp
      · rfl
    have hneeds : (aim = .spelling && needsDirectory rest && exceeds (place ++ [segment]) 1) =
        (aim = .spelling && needsDirectory rest' && exceeds (place ++ [segment]) 1) := by
      rcases haim with rfl | rfl <;> rfl
    have hchild := htwins (place ++ [segment])
    rw [Node.get?_append_singleton hnode, Node.get?_append_singleton hnode'] at hchild
    dsimp only
    rw [hslash, hlast, hneeds, hall]
    split
    · exact hon place
    · exact hon place.dropLast
    · split
      · exact hrefl _
      split
      · exact hrefl _
      split
      · exact hrefl _
      generalize entries.lookup segment = child, entries'.lookup segment = child' at hchild
      cases hchild with
      | none => exact hrefl _
      | dir =>
        dsimp only
        split
        · exact hrefl _
        · exact hon _
      | @leaf child hleaf =>
        cases child with
        | dir => exact absurd rfl hleaf
        | link target =>
          dsimp only
          split
          · exact hrefl _
          · cases links with
            | zero =>
              cases links' with
              | zero => exact hrefl _
              | succ => exact hstop rfl (Nat.succ_ne_zero _) _
            | succ left =>
              cases links' with
              | zero => cases hstop' rfl
              | succ left' => exact hfollow left left' rfl rfl _ _
        | _ =>
          dsimp only
          split
          · exact hrefl _
          · exact hon _

/-- Two walks through segments that they have in common are related if they are behind these. -/
theorem walk_append_rel (hrefl : ∀ x, R x x)
    (htwins : ∀ place, Node.Twins (root.get? place) (root'.get? place))
    (hall : rest.all (·.isEmpty) = rest'.all (·.isEmpty)) (haim : aim = .target ∨ rest = rest')
    (hle : links ≤ links') (hmany : links = links' ∨ ∀ x, R (.error .tooManyLinks) x)
    (hend : ∀ links links', links ≤ links' → (links = links' ∨ ∀ x, R (.error .tooManyLinks) x) →
      ∀ place, R (walk root aim links place rest) (walk root' aim links' place rest')) :
    R (walk root aim links place (front ++ rest))
      (walk root' aim links' place (front ++ rest')) := by
  -- A link's target is put in front of the segments, which can so get longer, but takes a link.
  induction links using Nat.strongRecOn generalizing links' place front with
  | ind links ihLinks =>
    induction front generalizing place with
    | nil => exact hend _ _ hle hmany place
    | cons segment front ih =>
      rw [List.cons_append, List.cons_append]
      refine walk_cons_rel hrefl htwins (by simp [hall]) (haim.imp_right fun h => by rw [h])
        (fun place => ih) ?_ (by omega) ?_
      · intro hnone hsome
        exact hmany.resolve_left (by omega)
      · intro left left' hleft hleft' place target
        rw [← List.append_assoc, ← List.append_assoc]
        exact ihLinks left (by omega) (by omega) (hmany.imp_left (by omega))

/-- A slash between segments can be doubled. -/
theorem walk_append_nil_cons (hrest : rest ≠ []) :
    walk root .target links place (front ++ [] :: rest) =
      walk root .target links place (front ++ rest) := by
  refine walk_append_rel (R := (· = ·)) (fun _ => rfl) (fun place => .refl _) rfl (.inl rfl)
    (Nat.le_refl _) (.inl rfl) ?_
  rintro links links' - hlinks place
  obtain rfl : links = links' := hlinks.resolve_right fun h => nomatch h (.ok .removed)
  obtain ⟨segment, rest, rfl⟩ := List.exists_cons_of_ne_nil hrest
  cases hnode : root.get? place with
  | none => rw [walk_cons, walk_cons, walkSegment, walkSegment, hnode]
  | some node =>
    cases node with
    | dir entries =>
      rw [walk_cons, walkSegment, hnode]
      rfl
    | _ => rw [walk_cons, walk_cons, walkSegment, walkSegment, hnode]

/-- With fewer links a way is the same, or there are too many on it. -/
theorem walk_of_le (root : Node) (aim : Aim) (place front : List Text) (h : links ≤ links') :
    walk root aim links place front = walk root aim links' place front ∨
      walk root aim links place front = .error .tooManyLinks := by
  rw [← List.append_nil front]
  refine walk_append_rel (R := fun x y => x = y ∨ x = .error .tooManyLinks) (fun _ => .inl rfl)
    (fun place => .refl _) rfl (.inr rfl) h (.inr fun _ => .inr rfl) fun _ _ _ _ place => ?_
  rw [walk_nil, walk_nil]
  exact .inl rfl

end Walks

/-! ## Directories in another order -/

/-- Two results that differ at most as two trees may that list their directories in different
orders. -/
inductive Place.Twins {ε : Type} : Except ε Place → Except ε Place → Prop
  | error (e : ε) : Twins (.error e) (.error e)
  | found (names : List Text) {node node' : Node} (hnode : Node.Twins (some node) (some node')) :
    Twins (.ok (.found names node)) (.ok (.found names node'))
  | free (names : List Text) : Twins (.ok (.free names)) (.ok (.free names))
  | removed : Twins (.ok .removed) (.ok .removed)

theorem Place.Twins.refl {ε : Type} (x : Except ε Place) : Twins x x := by
  rcases x with e | ⟨names, node⟩ | names | -
  · exact .error e
  · exact .found names (.refl _)
  · exact .free names
  · exact .removed

theorem Place.Twins.mapError {ε ε' : Type} {x y : Except ε Place} (h : Twins x y) (f : ε → ε') :
    Twins (x.mapError f) (y.mapError f) := by
  cases h with
  | error e => exact .error (f e)
  | found names hnode => exact .found names hnode
  | free names => exact .free names
  | removed => exact .removed

/-- Two trees that hold the same, but may list their directories in different orders. -/
structure Relists (tree tree' : FileTree) : Prop where
  twins : ∀ place, Node.Twins (tree.root.get? place) (tree'.root.get? place)
  current_eq : tree'.current = tree.current

section Relisting

variable {tree tree' : FileTree} (h : Relists tree tree') (aim : Aim) (p : Path)
include h

theorem Relists.walk (links : Nat) (place segments : List Text) :
    Place.Twins (FileTree.walk tree.root aim links place segments)
      (FileTree.walk tree'.root aim links place segments) := by
  rw [← List.append_nil segments]
  refine walk_append_rel .refl h.twins rfl (.inr rfl) (Nat.le_refl _) (.inl rfl) ?_
  intro _ _ _ _ place
  rw [walk_nil, walk_nil]
  generalize hnode : tree.root.get? place = node, hnode' : tree'.root.get? place = node'
  cases hnode ▸ hnode' ▸ h.twins place with
  | none => exact .error _
  | leaf => exact .refl _
  | dir hnames => exact .found place (.dir hnames)

theorem Relists.walkRemoved (parent segments : List Text) :
    Place.Twins (FileTree.walkRemoved tree.root aim parent segments)
      (FileTree.walkRemoved tree'.root aim parent segments) := by
  induction segments with
  | nil => exact .refl _
  | cons segment rest ih =>
    rw [FileTree.walkRemoved, FileTree.walkRemoved]
    split
    · exact ih
    · exact h.walk aim _ _ _
    · exact .refl _

theorem Relists.follow : Place.Twins (tree.follow aim p) (tree'.follow aim p) := by
  unfold FileTree.follow
  rw [h.current_eq]
  split
  · exact .refl _
  · dsimp only
    split
    · exact h.walk aim _ _ _
    · split
      · exact h.walk aim _ _ _
      · exact h.walkRemoved aim _ _

theorem Relists.resolve : Place.Twins (tree.resolve aim p) (tree'.resolve aim p) := by
  unfold FileTree.resolve
  split
  · exact .refl _
  · split
    · exact .refl _
    · exact (h.follow aim p).mapError AccessError.os

theorem Relists.node?_twins : Node.Twins (tree.node? p) (tree'.node? p) := by
  unfold FileTree.node?
  generalize hx : tree.resolve .target p = x, hy : tree'.resolve .target p = y
  cases hx ▸ hy ▸ h.resolve .target p with
  | error => exact .none
  | found names hnode => exact hnode
  | free => exact .none
  | removed => exact .refl _

theorem Relists.isDir_eq : tree'.isDir p = tree.isDir p := by
  unfold FileTree.isDir
  generalize hx : tree.node? p = x, hy : tree'.node? p = y
  cases hx ▸ hy ▸ h.node?_twins p <;> rfl

theorem Relists.isFile_eq : tree'.isFile p = tree.isFile p := by
  unfold FileTree.isFile
  generalize hx : tree.node? p = x, hy : tree'.node? p = y
  cases hx ▸ hy ▸ h.node?_twins p <;> rfl

theorem Relists.canonical_eq : tree'.canonical p = tree.canonical p := by
  have hcurrent : tree'.currentPath? = tree.currentPath? := by
    unfold currentPath?
    rw [h.current_eq]
  unfold FileTree.canonical
  rw [hcurrent]
  generalize hx : tree.follow .spelling p = x, hy : tree'.follow .spelling p = y
  cases hx ▸ hy ▸ h.follow .spelling p <;> rfl

theorem Relists.readText_eq : tree'.readText p = tree.readText p := by
  have hread : tree'.read p = tree.read p := by
    unfold FileTree.read
    generalize hx : tree.resolve .target p = x, hy : tree'.resolve .target p = y
    cases hx ▸ hy ▸ h.resolve .target p with
    | error | free | removed => rfl
    | found names hnode => cases hnode <;> rfl
  unfold FileTree.readText
  rw [hread]

theorem Relists.names_perm : (tree.names p).Perm (tree'.names p) := by
  unfold FileTree.names
  generalize hx : tree.node? p = x, hy : tree'.node? p = y
  cases hx ▸ hy ▸ h.node?_twins p with
  | none => exact .refl _
  | leaf => exact .refl _
  | dir hnames => exact hnames

end Relisting

end FileTree
end Optable
