import Optable.Proofs.Canonical
/-!
# Where paths land

A path lands where it leads once every directory on its way is there.  That is decided by links
alone: the names between them are gone through whether something is there or not.  So making
directories and files does not change where paths land, and what a path leads to afterwards could be
told before.
-/

namespace Optable

namespace Node

def target? : Node → Option Path
  | .link target => some target
  | _ => none

theorem target?_eq_some_iff {node : Node} {target : Path} :
    node.target? = some target ↔ node = .link target := by
  cases node <;> simp [target?]

end Node

namespace FileTree

/-- The target of the link at a place. -/
def linkAt? (root : Node) (place : List Text) : Option Path := (root.get? place).bind Node.target?

/-- Where segments land from a place, given the links of the tree. -/
def land (linkAt? : List Text → Option Path) (links : Nat) (place : List Text) :
    List Text → Option (List Text)
  | [] => some place
  | segment :: rest =>
    match Path.Component.ofSegment? segment with
    | none => land linkAt? links place rest
    | some .up => land linkAt? links place.dropLast rest
    | some _ =>
      match linkAt? (place ++ [segment]) with
      | none => land linkAt? links (place ++ [segment]) rest
      | some target =>
        match links with
        | 0 => none
        | links + 1 =>
          land linkAt? links (if target.isAbsolute then [] else place)
            (target.text.splitOn '/' ++ rest)
termination_by segments => (links, segments.length)

/-- Where a path lands in the tree, if it can be followed at all. -/
def landing (tree : FileTree) (p : Path) : Option (List Text) :=
  if '\x00' ∈ p.text ∨ Text.byteSize p.text > pathLimit then none
  else match departure? tree.current p with
    | some (.place names segments) => land (linkAt? tree.root) linkLimit names segments
    | _ => none

/-- The names of a place. -/
def Place.names? : Place → Option (List Text)
  | .found names _ => some names
  | .free names => some names
  | .removed => none

variable {tree before after : FileTree} {root : Node} {aim : Aim} {links : Nat}
  {place names segments rest : List Text} {p q : Path} {target : Path} {result : Place}

theorem linkAt?_eq_some_iff :
    linkAt? root place = some target ↔ root.get? place = some (.link target) := by
  simp [linkAt?, Option.bind_eq_some_iff, Node.target?_eq_some_iff]

theorem land_of_all_isEmpty {linkAt? : List Text → Option Path} (h : rest.all (·.isEmpty)) :
    land linkAt? links place rest = some place := by
  induction rest with
  | nil => rw [land]
  | cons segment rest ih =>
    obtain ⟨hsegment, hrest⟩ : segment = [] ∧ rest.all (·.isEmpty) := by simpa using h
    rw [land, hsegment]
    exact ih hrest

/-- A way goes where its segments land, unless it ends at a link. -/
theorem Way.land_eq (h : Way root aim links place segments result) (haim : aim ≠ .entry) :
    land (linkAt? root) links place segments = result.names? := by
  induction h with
  | here =>
    rw [land]
    rfl
  | stay _ hsegment _ ih =>
    rw [land, hsegment]
    exact ih
  | up _ hsegment _ ih =>
    rw [land, hsegment]
    exact ih
  | @free _ place segment _ _ hstep hnode hrest =>
    have hlink : linkAt? root (place ++ [segment]) = none := by
      rw [linkAt?, hnode, Option.bind_none]
    rw [land, hstep.name]
    simp only [hlink]
    exact land_of_all_isEmpty hrest
  | link _ _ _ hentry => exact absurd hentry haim
  | follow _ hstep hnode _ _ ih =>
    rw [land, hstep.name]
    simp only [linkAt?_eq_some_iff.2 hnode]
    exact ih
  | @enter _ place segment _ _ _ _ hstep hnode hlink _ _ ih =>
    have hnone : linkAt? root (place ++ [segment]) = none := by
      refine Option.eq_none_iff_forall_ne_some.2 fun target htarget => hlink target ?_
      exact Option.some.inj (hnode.symm.trans (linkAt?_eq_some_iff.1 htarget))
    rw [land, hstep.name]
    simp only [hnone]
    exact ih

theorem landing_of_resolve (h : tree.resolve aim p = .ok result) (haim : aim ≠ .entry) :
    tree.landing p = result.names? := by
  obtain ⟨hnul, hlong, hfollow⟩ := resolve_eq_ok_iff.1 h
  obtain ⟨d, hd, hleads⟩ := follow_eq_ok_iff.1 hfollow
  rw [landing, if_neg (not_or.2 ⟨hnul, Nat.not_lt.2 hlong⟩), hd]
  cases d with
  | place => exact Way.land_eq hleads haim
  | removed =>
    obtain rfl : result = .removed := hleads
    rfl

/-- Names land at the place that they spell, unless there is a link on the way. -/
theorem land_names {linkAt? : List Text → Option Path} (hnames : ∀ name ∈ names, IsName name)
    (hlinks : ∀ front rest, names = front ++ rest → front ≠ [] → linkAt? (place ++ front) = none) :
    land linkAt? links place names = some (place ++ names) := by
  induction names generalizing place with
  | nil => rw [land, List.append_nil]
  | cons name names ih =>
    obtain ⟨hname, hnames⟩ := List.forall_mem_cons.1 hnames
    have hhere : linkAt? (place ++ [name]) = none := hlinks [name] names rfl (List.cons_ne_nil _ _)
    have hbelow : ∀ front rest, names = front ++ rest → front ≠ [] →
        linkAt? (place ++ [name] ++ front) = none := by
      rintro front rest rfl -
      rw [List.append_assoc]
      exact hlinks (name :: front) rest rfl (List.cons_ne_nil _ _)
    rw [land, hname.ofSegment?_eq]
    simp only [hhere, ih hnames hbelow, List.append_assoc, List.singleton_append]

theorem eq_of_landing_pathOf (hnames : ∀ name ∈ names, IsName name) (hnil : names ≠ [])
    (hlinks : ∀ front rest, names = front ++ rest → front ≠ [] → linkAt? tree.root front = none)
    (h : tree.landing (pathOf names) = some place) :
    place = names ∧ Text.byteSize (pathOf names).text ≤ pathLimit := by
  unfold landing at h
  split at h
  · cases h
  · next hfits =>
    refine ⟨?_, Nat.not_lt.1 fun hlong => hfits (.inr hlong)⟩
    have hd : departure? tree.current (pathOf names) = some (.place [] ([] :: names)) := by
      rw [← splitOn_pathOf hnames hnil]
      rfl
    have hland : land (linkAt? tree.root) linkLimit [] ([] :: names) = some names := by
      rw [land]
      exact land_names hnames hlinks
    rw [hd] at h
    exact Option.some.inj (h.symm.trans hland)

/-- Trees with the same links have the same landings. -/
theorem landing_congr (hlinks : linkAt? after.root = linkAt? before.root)
    (hcurrent : after.current = before.current) (p : Path) :
    after.landing p = before.landing p := by
  rw [landing, landing, hlinks, hcurrent]

end FileTree
end Optable
