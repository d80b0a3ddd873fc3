import Optable.FileTree.Resolve
import Optable.Proofs.Node
/-!
# The way of a path

A path that leads somewhere does so by a finite way of steps, each of which looks at one node of
the tree.  The walk finds a place if and only if there is a way to it, so that what is said about
ways holds of walks.  A way for a file, or to a free name, is one to what the path leads to, and
where that is something, there is a way to what stands at the end of the path, maybe a link.
-/

namespace Optable.FileTree

/-- What a segment has to be, whatever the tree, so that a name is looked up. -/
structure IsStep (aim : Aim) (place : List Text) (segment : Text) (rest : List Text) : Prop where
  name : Path.Component.ofSegment? segment = some (.name segment)
  leadsOn : ¬ (aim = .file && isEndSlash rest)
  short : ¬ Text.byteSize segment > nameLimit
  spelled : ¬ (aim = .spelling && exceeds (place ++ [segment]) 0)

/-- A way along segments from a place of the tree to where it ends. -/
inductive Way (root : Node) (aim : Aim) : Nat → List Text → List Text → Place → Prop
  | here {links place node} (hnode : root.get? place = some node) :
    Way root aim links place [] (.found place node)
  | stay {links place segment rest result} (hdir : (root.get? place).any Node.isDir)
    (hsegment : Path.Component.ofSegment? segment = none)
    (hrest : Way root aim links place rest result) :
    Way root aim links place (segment :: rest) result
  | up {links place segment rest result} (hdir : (root.get? place).any Node.isDir)
    (hsegment : Path.Component.ofSegment? segment = some .up)
    (hrest : Way root aim links place.dropLast rest result) :
    Way root aim links place (segment :: rest) result
  | free {links place segment rest} (hdir : (root.get? place).any Node.isDir)
    (hstep : IsStep aim place segment rest) (hnode : root.get? (place ++ [segment]) = none)
    (hrest : rest.all (·.isEmpty)) :
    Way root aim links place (segment :: rest) (.free (place ++ [segment]))
  | link {links place segment target} (hdir : (root.get? place).any Node.isDir)
    (hstep : IsStep aim place segment [])
    (hnode : root.get? (place ++ [segment]) = some (.link target)) (haim : aim = .entry) :
    Way root aim links place [segment] (.found (place ++ [segment]) (.link target))
  | follow {links place segment rest target result} (hdir : (root.get? place).any Node.isDir)
    (hstep : IsStep aim place segment rest)
    (hnode : root.get? (place ++ [segment]) = some (.link target))
    (hon : ¬ (rest.isEmpty && aim = .entry))
    (hrest : Way root aim links (if target.isAbsolute then [] else place)
      (target.text.splitOn '/' ++ rest) result) :
    Way root aim (links + 1) place (segment :: rest) result
  | enter {links place segment rest node result} (hdir : (root.get? place).any Node.isDir)
    (hstep : IsStep aim place segment rest) (hnode : root.get? (place ++ [segment]) = some node)
    (hlink : ∀ target, node ≠ .link target)
    (hspelled : ¬ (aim = .spelling && needsDirectory rest && exceeds (place ++ [segment]) 1))
    (hrest : Way root aim links (place ++ [segment]) rest result) :
    Way root aim links place (segment :: rest) result

variable {root : Node} {aim : Aim} {links : Nat} {place segments : List Text} {result : Place}

theorem any_isDir_iff : (root.get? place).any Node.isDir ↔
    ∃ entries, root.get? place = some (.dir entries) := by
  cases root.get? place with
  | none => simp
  | some node => simpa using Node.isDir_iff

theorem ofSegment?_of_ne_up {segment : Text} {c : Path.Component}
    (h : Path.Component.ofSegment? segment = some c) (hup : c ≠ .up) :
    Path.Component.ofSegment? segment = some (.name segment) := by
  unfold Path.Component.ofSegment? at h ⊢
  split at h
  · cases h
  · cases h
  · cases h
    exact absurd rfl hup
  · rfl

/-- What comes of a segment is where a way ends, if what comes of the segments behind it is. -/
theorem way_of_walkSegment {segment : Text} {rest : List Text}
    (h : walk root aim links place (segment :: rest) = .ok result)
    (hon : ∀ place, walk root aim links place rest = .ok result →
      Way root aim links place rest result)
    (hbehind : ∀ left, links = left + 1 → ∀ place segments,
      walk root aim left place segments = .ok result → Way root aim left place segments result) :
    Way root aim links place (segment :: rest) result := by
  rw [walk_cons] at h
  unfold walkSegment at h
  split at h
  · next entries hentries =>
    have hdir := any_isDir_iff.2 ⟨entries, hentries⟩
    split at h
    · next hsegment => exact .stay hdir hsegment (hon _ h)
    · next hsegment => exact .up hdir hsegment (hon _ h)
    · next hup hsegment =>
      split at h
      · cases h
      next hleads =>
      split at h
      · cases h
      next hshort =>
      split at h
      · cases h
      next hspelled =>
      have hstep : IsStep aim place segment rest :=
        ⟨ofSegment?_of_ne_up hsegment hup, hleads, hshort, hspelled⟩
      have hchild := Node.get?_append_singleton hentries segment
      split at h
      · next hlookup =>
        split at h
        · next hrest =>
          cases h
          exact .free hdir hstep (hchild.trans hlookup) hrest
        · cases h
      · next target hlookup =>
        split at h
        · next hend =>
          cases h
          obtain ⟨hrest, haim⟩ : rest = [] ∧ aim = .entry := by simpa using hend
          subst hrest
          exact .link hdir hstep (hchild.trans hlookup) haim
        · next hend =>
          cases links with
          | zero => cases h
          | succ left =>
            exact .follow hdir hstep (hchild.trans hlookup) hend (hbehind left rfl _ _ h)
      · next node hlink hlookup =>
        split at h
        · cases h
        · next hneeds =>
          exact .enter hdir hstep (hchild.trans hlookup) (fun target => hlink target) hneeds
            (hon _ h)
  · cases h
  · cases h

/-- What the walk answers is where a way ends. -/
theorem way_of_walk (h : walk root aim links place segments = .ok result) :
    Way root aim links place segments result := by
  -- A link's target is followed with one link less, however many segments it has.
  induction links using Nat.strongRecOn generalizing place segments with
  | ind links ihLinks =>
    induction segments generalizing place with
    | nil =>
      rw [walk_nil] at h
      split at h
      · next hnode =>
        cases h
        exact .here hnode
      · cases h
    | cons segment rest ih =>
      exact way_of_walkSegment h (fun _ => ih) fun left hleft _ _ => ihLinks left (by omega)

theorem walk_of_way (h : Way root aim links place segments result) :
    walk root aim links place segments = .ok result := by
  induction h with
  | here hnode => rw [walk_nil, hnode]
  | stay hdir hsegment _ ih =>
    obtain ⟨entries, hentries⟩ := any_isDir_iff.1 hdir
    rw [walk_cons, walkSegment, hentries]
    simp only [hsegment, ih]
  | up hdir hsegment _ ih =>
    obtain ⟨entries, hentries⟩ := any_isDir_iff.1 hdir
    rw [walk_cons, walkSegment, hentries]
    simp only [hsegment, ih]
  | free hdir hstep hnode hrest =>
    obtain ⟨entries, hentries⟩ := any_isDir_iff.1 hdir
    rw [walk_cons, walkSegment, hentries]
    simp only [hstep.name, if_neg hstep.leadsOn, if_neg hstep.short, if_neg hstep.spelled,
      ← Node.get?_append_singleton hentries, hnode, if_pos hrest]
  | link hdir hstep hnode haim =>
    obtain ⟨entries, hentries⟩ := any_isDir_iff.1 hdir
    rw [walk_cons, walkSegment, hentries]
    simp only [hstep.name, if_neg hstep.leadsOn, if_neg hstep.short, if_neg hstep.spelled,
      ← Node.get?_append_singleton hentries, hnode]
    simp [haim]
  | follow hdir hstep hnode hon _ ih =>
    obtain ⟨entries, hentries⟩ := any_isDir_iff.1 hdir
    rw [walk_cons, walkSegment, hentries]
    simp only [hstep.name, if_neg hstep.leadsOn, if_neg hstep.short, if_neg hstep.spelled,
      ← Node.get?_append_singleton hentries, hnode, if_neg hon, walkBehind_succ, ih]
  | @enter _ _ _ _ node _ hdir hstep hnode hlink hspelled _ ih =>
    obtain ⟨entries, hentries⟩ := any_isDir_iff.1 hdir
    rw [walk_cons, walkSegment, hentries]
    simp only [hstep.name, if_neg hstep.leadsOn, if_neg hstep.short, if_neg hstep.spelled,
      ← Node.get?_append_singleton hentries, hnode]
    cases node with
    | link target => exact absurd rfl (hlink target)
    | _ => simp only [if_neg hspelled, ih]

theorem walk_eq_ok_iff :
    walk root aim links place segments = .ok result ↔ Way root aim links place segments result :=
  ⟨way_of_walk, walk_of_way⟩

/-- A place that is as the tree has it. -/
def Place.IsIn (root : Node) : Place → Prop
  | .found names node => root.get? names = some node
  | .free names => root.get? names = none ∧
    ∃ dir name, names = dir ++ [name] ∧ (root.get? dir).any Node.isDir
  | .removed => True

theorem Way.isIn (h : Way root aim links place segments result) : result.IsIn root := by
  induction h with
  | here hnode => exact hnode
  | stay _ _ _ ih => exact ih
  | up _ _ _ ih => exact ih
  | free hdir _ hnode _ => exact ⟨hnode, _, _, rfl, hdir⟩
  | link _ _ hnode _ => exact hnode
  | follow _ _ _ _ _ ih => exact ih
  | enter _ _ _ _ _ _ ih => exact ih

theorem Way.ne_removed (h : Way root aim links place segments result) : result ≠ .removed := by
  induction h with
  | here | free | link => exact nofun
  | stay _ _ _ ih => exact ih
  | up _ _ _ ih => exact ih
  | follow _ _ _ _ _ ih => exact ih
  | enter _ _ _ _ _ _ ih => exact ih

section Aims

theorem IsStep.of_aim {aim' : Aim} {segment : Text} {rest : List Text}
    (h : IsStep aim place segment rest) (hfile : aim' ≠ .file) (hspelling : aim' ≠ .spelling) :
    IsStep aim' place segment rest :=
  ⟨h.name, by simp [hfile], h.short, by simp [hspelling]⟩

/-- Whatever a path is followed for, its way is one to what it leads to, but for a link that it was
followed to as an entry. -/
theorem Way.target (h : Way root aim links place segments result)
    (hentry : aim = .entry → result.node? = none) :
    Way root .target links place segments result := by
  have hstep {place : List Text} {segment : Text} {rest : List Text}
      (hstep : IsStep aim place segment rest) : IsStep .target place segment rest :=
    hstep.of_aim (by decide) (by decide)
  induction h with
  | here hnode => exact .here hnode
  | stay hdir hsegment _ ih => exact .stay hdir hsegment (ih hentry)
  | up hdir hsegment _ ih => exact .up hdir hsegment (ih hentry)
  | free hdir hname hnode hrest => exact .free hdir (hstep hname) hnode hrest
  | link _ _ _ haim => cases hentry haim
  | follow hdir hname hnode _ _ ih => exact .follow hdir (hstep hname) hnode (by simp) (ih hentry)
  | enter hdir hname hnode hlink _ _ ih =>
    exact .enter hdir (hstep hname) hnode hlink (by simp) (ih hentry)

/-- Where a path leads to something, something stands at its end, maybe a link to the former. -/
theorem Way.entry_of_target (h : Way root .target links place segments result)
    (hfound : result.node? ≠ none) :
    ∃ result', result'.node? ≠ none ∧ Way root .entry links place segments result' := by
  have hstep {place : List Text} {segment : Text} {rest : List Text}
      (hstep : IsStep .target place segment rest) : IsStep .entry place segment rest :=
    hstep.of_aim (by decide) (by decide)
  induction h with
  | here hnode => exact ⟨_, hfound, .here hnode⟩
  | stay hdir hsegment _ ih =>
    obtain ⟨result', hfound', hway⟩ := ih hfound
    exact ⟨result', hfound', .stay hdir hsegment hway⟩
  | up hdir hsegment _ ih =>
    obtain ⟨result', hfound', hway⟩ := ih hfound
    exact ⟨result', hfound', .up hdir hsegment hway⟩
  | free => exact absurd rfl hfound
  | link _ _ _ haim => cases haim
  | @follow _ _ _ rest _ _ hdir hname hnode _ _ ih =>
    by_cases hrest : rest = []
    · subst hrest
      refine ⟨_, ?_, .link hdir (hstep hname) hnode rfl⟩
      exact Option.some_ne_none _
    · obtain ⟨result', hfound', hway⟩ := ih hfound
      exact ⟨result', hfound', .follow hdir (hstep hname) hnode (by simp [hrest]) hway⟩
  | enter hdir hname hnode hlink _ _ ih =>
    obtain ⟨result', hfound', hway⟩ := ih hfound
    exact ⟨result', hfound', .enter hdir (hstep hname) hnode hlink (by simp) hway⟩

end Aims

/-- Where a path starts from: a place with segments to follow from there, or a current directory
that was taken away and is not left. -/
inductive Departure where
  | place (names segments : List Text)
  | removed

/-- The way out of a directory that was taken away. -/
def leave? (parent : List Text) : List Text → Option Departure
  | [] => some .removed
  | segment :: rest =>
    match Path.Component.ofSegment? segment with
    | none => leave? parent rest
    | some .up => some (.place parent rest)
    | some _ => none

/-- Where a path starts from, if it can be followed at all. -/
def departure? (current : CurrentDirectory) (p : Path) : Option Departure :=
  if p.text.isEmpty then none
  else if p.isAbsolute then some (.place [] (p.text.splitOn '/'))
  else match current with
    | .place names => some (.place names (p.text.splitOn '/'))
    | .removed parent => leave? parent (p.text.splitOn '/')

/-- Where it leads to from there. -/
def Departure.Leads (root : Node) (aim : Aim) (result : Place) : Departure → Prop
  | .place names segments => Way root aim linkLimit names segments result
  | .removed => result = .removed

theorem walkRemoved_eq_ok_iff {parent : List Text} :
    walkRemoved root aim parent segments = .ok result ↔
      ∃ d, leave? parent segments = some d ∧ d.Leads root aim result := by
  induction segments with
  | nil => simp [walkRemoved, leave?, Departure.Leads, eq_comm]
  | cons segment rest ih =>
    cases hsegment : Path.Component.ofSegment? segment with
    | none => simp [walkRemoved, leave?, hsegment, ih]
    | some c => cases c <;> simp [walkRemoved, leave?, hsegment, walk_eq_ok_iff, Departure.Leads]

theorem mapError_eq_ok_iff {ε ε' α : Type} {x : Except ε α} {f : ε → ε'} {a : α} :
    x.mapError f = .ok a ↔ x = .ok a := by
  cases x <;> simp [Except.mapError]

variable {tree : FileTree} {p : Path}

theorem follow_eq_ok_iff :
    tree.follow aim p = .ok result ↔
      ∃ d, departure? tree.current p = some d ∧ d.Leads tree.root aim result := by
  unfold follow departure?
  by_cases hempty : p.text.isEmpty
  · simp [hempty]
  by_cases habsolute : p.isAbsolute
  · simp [hempty, habsolute, walk_eq_ok_iff, Departure.Leads]
  · cases tree.current with
    | place names => simp [hempty, habsolute, walk_eq_ok_iff, Departure.Leads]
    | removed parent => simp [hempty, habsolute, walkRemoved_eq_ok_iff]

theorem resolve_eq_ok_iff :
    tree.resolve aim p = .ok result ↔
      '\x00' ∉ p.text ∧ Text.byteSize p.text ≤ pathLimit ∧ tree.follow aim p = .ok result := by
  unfold resolve
  by_cases hnul : '\x00' ∈ p.text
  · simp [hnul]
  by_cases hlong : Text.byteSize p.text ≤ pathLimit
  · simp [hnul, hlong, Nat.not_lt.2 hlong, mapError_eq_ok_iff]
  · simp [hnul, hlong, Nat.not_le.1 hlong]

theorem isIn_of_follow (h : tree.follow aim p = .ok result) : result.IsIn tree.root := by
  obtain ⟨d, -, hleads⟩ := follow_eq_ok_iff.1 h
  cases d with
  | place => exact Way.isIn hleads
  | removed =>
    obtain rfl : result = .removed := hleads
    trivial

theorem isIn_of_resolve (h : tree.resolve aim p = .ok result) : result.IsIn tree.root :=
  isIn_of_follow (resolve_eq_ok_iff.1 h).2.2

theorem resolve_target (h : tree.resolve aim p = .ok result)
    (hentry : aim = .entry → result.node? = none) : tree.resolve .target p = .ok result := by
  obtain ⟨hnul, hlong, hfollow⟩ := resolve_eq_ok_iff.1 h
  obtain ⟨d, hd, hleads⟩ := follow_eq_ok_iff.1 hfollow
  refine resolve_eq_ok_iff.2 ⟨hnul, hlong, follow_eq_ok_iff.2 ⟨d, hd, ?_⟩⟩
  cases d with
  | place => exact Way.target hleads hentry
  | removed => exact hleads

theorem resolve_target_of_file (h : tree.resolve .file p = .ok result) :
    tree.resolve .target p = .ok result :=
  resolve_target h (by simp)

theorem resolve_entry_of_target (h : tree.resolve .target p = .ok result)
    (hfound : result.node? ≠ none) :
    ∃ result', result'.node? ≠ none ∧ tree.resolve .entry p = .ok result' := by
  obtain ⟨hnul, hlong, hfollow⟩ := resolve_eq_ok_iff.1 h
  obtain ⟨d, hd, hleads⟩ := follow_eq_ok_iff.1 hfollow
  have hresolve {result' : Place} (hleads' : d.Leads tree.root .entry result') :
      tree.resolve .entry p = .ok result' :=
    resolve_eq_ok_iff.2 ⟨hnul, hlong, follow_eq_ok_iff.2 ⟨d, hd, hleads'⟩⟩
  cases d with
  | place =>
    obtain ⟨result', hfound', hway⟩ := Way.entry_of_target hleads hfound
    exact ⟨result', hfound', hresolve hway⟩
  | removed => exact ⟨result, hfound, hresolve hleads⟩

end Optable.FileTree
