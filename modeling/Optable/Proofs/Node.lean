import Mathlib.Data.List.Basic
import Optable.FileTree
/-!
# Nodes at places

What is found at a place after a node was put at the same place or at another one, and when the
order of two such changes does not matter.  A tree keeps what it holds if each of its nodes is
still there, be it with other contents.
-/

namespace Optable.Node

section Entries

variable {name other : Text} {node : Node} {entries : List (Text × Node)}

@[simp] theorem lookup_setEntry_self (name : Text) (node : Node) (entries : List (Text × Node)) :
    (setEntry name node entries).lookup name = some node := by
  induction entries with
  | nil => simp [setEntry]
  | cons e entries ih =>
    obtain ⟨n, old⟩ := e
    by_cases h : n = name
    · simp [setEntry, h]
    · have hne : (name == n) = false := beq_eq_false_iff_ne.2 (Ne.symm h)
      simp [setEntry, h, List.lookup_cons, hne, ih]

theorem lookup_setEntry_of_ne (h : other ≠ name) (node : Node) (entries : List (Text × Node)) :
    (setEntry name node entries).lookup other = entries.lookup other := by
  have hother : (other == name) = false := beq_eq_false_iff_ne.2 h
  induction entries with
  | nil => simp [setEntry, List.lookup_cons, hother]
  | cons e entries ih =>
    obtain ⟨n, old⟩ := e
    by_cases hn : n = name
    · subst hn
      simp [setEntry, List.lookup_cons, hother]
    · simp [setEntry, hn, List.lookup_cons, ih]

theorem setEntry_setEntry (name : Text) (node old : Node) (entries : List (Text × Node)) :
    setEntry name node (setEntry name old entries) = setEntry name node entries := by
  induction entries with
  | nil => simp [setEntry]
  | cons e entries ih =>
    obtain ⟨n, former⟩ := e
    by_cases h : n = name
    · simp [setEntry, h]
    · simp [setEntry, h, ih]

theorem setEntry_of_lookup (h : entries.lookup name = some node) :
    setEntry name node entries = entries := by
  induction entries with
  | nil => simp at h
  | cons e entries ih =>
    obtain ⟨n, old⟩ := e
    by_cases hn : n = name
    · have hnode : old = node := by simpa [hn, List.lookup_cons] using h
      simp [setEntry, hn, hnode]
    · have hne : (name == n) = false := beq_eq_false_iff_ne.2 (Ne.symm hn)
      rw [List.lookup_cons, hne] at h
      simp [setEntry, hn, ih h]

/-- Entries that are there keep their position, so that two of them can be set in either order. -/
theorem setEntry_comm {former latter : Node} (h : name ≠ other)
    (hname : entries.lookup name = some former) (hother : entries.lookup other = some latter)
    (a b : Node) :
    setEntry name a (setEntry other b entries) = setEntry other b (setEntry name a entries) := by
  induction entries with
  | nil => simp at hname
  | cons e entries ih =>
    obtain ⟨n, old⟩ := e
    by_cases hn : n = name
    · subst hn
      simp [setEntry, h]
    · by_cases ho : n = other
      · subst ho
        simp [setEntry, hn]
      · have hnameNe : (name == n) = false := beq_eq_false_iff_ne.2 (Ne.symm hn)
        have hotherNe : (other == n) = false := beq_eq_false_iff_ne.2 (Ne.symm ho)
        rw [List.lookup_cons, hnameNe] at hname
        rw [List.lookup_cons, hotherNe] at hother
        simp [setEntry, hn, ho, ih hname hother]

end Entries

variable {root node old new : Node} {name : Text} {p q rest : List Text}
  {entries : List (Text × Node)}

@[simp] theorem get?_nil (root : Node) : root.get? [] = some root := by
  cases root <;> rfl

@[simp] theorem get?_dir_cons (entries : List (Text × Node)) (name : Text) (rest : List Text) :
    (Node.dir entries).get? (name :: rest) = (entries.lookup name).bind (·.get? rest) := rfl

theorem get?_cons_eq_some_iff :
    root.get? (name :: rest) = some node ↔
      ∃ entries child, root = .dir entries ∧ entries.lookup name = some child ∧
        child.get? rest = some node := by
  cases root with
  | dir entries => simp [Option.bind_eq_some_iff]
  | _ => simp [get?]

theorem isDir_iff : root.isDir ↔ ∃ entries, root = .dir entries := by
  cases root <;> simp [isDir]

theorem isFile_iff : root.isFile ↔ ∃ bytes executable, root = .file bytes executable := by
  cases root <;> simp [isFile]

theorem get?_append (root : Node) (p q : List Text) :
    root.get? (p ++ q) = (root.get? p).bind (·.get? q) := by
  induction p generalizing root with
  | nil => simp
  | cons name p ih =>
    cases root with
    | dir entries =>
      cases h : entries.lookup name with
      | none => simp [h]
      | some child => simp [h, ih]
    | _ => rfl

theorem get?_append_singleton (h : root.get? p = some (.dir entries)) (name : Text) :
    root.get? (p ++ [name]) = entries.lookup name := by
  rw [get?_append, h, Option.bind_some, get?_dir_cons]
  cases entries.lookup name <;> simp

section Put

@[simp] theorem put_nil (new root : Node) : put new root [] = new := by
  cases root <;> rfl

@[simp] theorem put_singleton (new : Node) (entries : List (Text × Node)) (name : Text) :
    put new (.dir entries) [name] = .dir (setEntry name new entries) := rfl

/-- Putting a node below an entry that is there puts it into that entry. -/
theorem put_cons_of_lookup {child : Node} (h : entries.lookup name = some child) (new : Node)
    (rest : List Text) :
    put new (.dir entries) (name :: rest) = .dir (setEntry name (put new child rest) entries) := by
  cases rest with
  | nil => simp
  | cons next rest => simp [put, h]

/-- Below an entry that is not there nothing is put. -/
theorem put_cons_of_lookup_none (h : entries.lookup name = none) (hrest : rest ≠ [])
    (new : Node) : put new (.dir entries) (name :: rest) = .dir entries := by
  cases rest with
  | nil => exact absurd rfl hrest
  | cons next rest => simp [put, h]

theorem exists_put_cons (new : Node) (entries : List (Text × Node)) (name : Text)
    (rest : List Text) : ∃ entries', put new (.dir entries) (name :: rest) = .dir entries' := by
  cases hchild : entries.lookup name with
  | some child => exact ⟨_, put_cons_of_lookup hchild new rest⟩
  | none =>
    by_cases hrest : rest = []
    · exact ⟨_, by rw [hrest, put_singleton]⟩
    · exact ⟨_, put_cons_of_lookup_none hchild hrest new⟩

theorem get?_put_cons_of_ne {first : Text} (h : first ≠ name) (new : Node)
    (entries : List (Text × Node)) (rest others : List Text) :
    (put new (.dir entries) (name :: rest)).get? (first :: others) =
      (Node.dir entries).get? (first :: others) := by
  cases hchild : entries.lookup name with
  | some child =>
    rw [put_cons_of_lookup hchild, get?_dir_cons, lookup_setEntry_of_ne h, get?_dir_cons]
  | none =>
    by_cases hrest : rest = []
    · rw [hrest, put_singleton, get?_dir_cons, lookup_setEntry_of_ne h, get?_dir_cons]
    · rw [put_cons_of_lookup_none hchild hrest]

theorem get?_put_cons_self {child : Node} (h : entries.lookup name = some child) (new : Node)
    (rest others : List Text) :
    (put new (.dir entries) (name :: rest)).get? (name :: others) =
      (put new child rest).get? others := by
  rw [put_cons_of_lookup h, get?_dir_cons, lookup_setEntry_self, Option.bind_some]

theorem put_of_not_isDir (h : ¬ root.isDir) (hp : p ≠ []) (new : Node) : put new root p = root := by
  cases p with
  | nil => exact absurd rfl hp
  | cons name rest =>
    cases root with
    | dir entries => exact absurd rfl h
    | _ => cases rest <;> rfl

theorem get?_put_self (h : root.get? p = some old) (new : Node) :
    (put new root p).get? p = some new := by
  induction p generalizing root with
  | nil => simp
  | cons name rest ih =>
    obtain ⟨entries, child, rfl, hchild, hrest⟩ := get?_cons_eq_some_iff.1 h
    rw [get?_put_cons_self hchild, ih hrest]

theorem get?_put_append_singleton (h : root.get? p = some (.dir entries)) (name : Text)
    (new : Node) : (put new root (p ++ [name])).get? (p ++ [name]) = some new := by
  induction p generalizing root with
  | nil =>
    obtain rfl : root = .dir entries := by simpa using h
    simp
  | cons first rest ih =>
    obtain ⟨others, child, rfl, hchild, hrest⟩ := get?_cons_eq_some_iff.1 h
    rw [List.cons_append, get?_put_cons_self hchild, ih hrest]

theorem put_put (new old root : Node) (p : List Text) :
    put new (put old root p) p = put new root p := by
  induction p generalizing root with
  | nil => simp
  | cons name rest ih =>
    cases root with
    | dir entries =>
      by_cases hrest : rest = []
      · subst hrest
        simp [setEntry_setEntry]
      · cases hchild : entries.lookup name with
        | none => rw [put_cons_of_lookup_none hchild hrest, put_cons_of_lookup_none hchild hrest]
        | some child =>
          rw [put_cons_of_lookup hchild, put_cons_of_lookup (lookup_setEntry_self _ _ _),
            put_cons_of_lookup hchild, ih, setEntry_setEntry]
    | _ => cases rest <;> rfl

theorem put_of_get? (h : root.get? p = some node) : put node root p = root := by
  induction p generalizing root with
  | nil => simpa using h.symm
  | cons name rest ih =>
    obtain ⟨entries, child, rfl, hchild, hrest⟩ := get?_cons_eq_some_iff.1 h
    rw [put_cons_of_lookup hchild, ih hrest, setEntry_of_lookup hchild]

/-- What holds no entries stays where something else is put. -/
theorem get?_put_of_ne (hnode : root.get? q = some node) (hleaf : ¬ node.isDir)
    (hold : ∀ old, root.get? p = some old → ¬ old.isDir) (hne : q ≠ p) (new : Node) :
    (put new root p).get? q = some node := by
  induction p generalizing root q with
  | nil =>
    -- The whole tree would be replaced, but then it holds no other place.
    cases q with
    | nil => exact absurd rfl hne
    | cons first others =>
      obtain ⟨entries, -, rfl, -⟩ := get?_cons_eq_some_iff.1 hnode
      exact absurd rfl (hold _ (get?_nil _))
  | cons name rest ih =>
    cases q with
    | nil =>
      obtain rfl : root = node := by simpa using hnode
      rwa [put_of_not_isDir hleaf (by simp)]
    | cons first others =>
      obtain ⟨entries, child, rfl, hchild, hothers⟩ := get?_cons_eq_some_iff.1 hnode
      by_cases hfirst : first = name
      · subst hfirst
        rw [get?_put_cons_self hchild]
        refine ih hothers (fun old hget => hold old ?_) fun h => hne (by rw [h])
        rw [get?_dir_cons, hchild, Option.bind_some, hget]
      · rwa [get?_put_cons_of_ne hfirst]

/-- What can be put into a tree: a file, or a directory without entries. -/
inductive IsFresh : Node → Prop
  | file (bytes : ByteArray) (executable : Bool) : IsFresh (.file bytes executable)
  | emptyDir : IsFresh .emptyDir

theorem IsFresh.get?_cons (h : new.IsFresh) (name : Text) (rest : List Text) :
    new.get? (name :: rest) = none := by
  cases h <;> rfl

/-- Apart from what was put there, all that holds no entries was there before. -/
theorem get?_of_put (hnew : new.IsFresh) (h : (put new root p).get? q = some node)
    (hleaf : ¬ node.isDir) : q = p ∧ node = new ∨ root.get? q = some node := by
  induction p generalizing root q with
  | nil =>
    rw [put_nil] at h
    cases q with
    | nil => exact .inl ⟨rfl, by simpa using h.symm⟩
    | cons first others => simp [hnew.get?_cons] at h
  | cons name rest ih =>
    by_cases hroot : root.isDir
    · obtain ⟨entries, rfl⟩ := isDir_iff.1 hroot
      cases q with
      | nil =>
        obtain ⟨entries', hput⟩ := exists_put_cons new entries name rest
        obtain rfl : Node.dir entries' = node := by simpa [hput] using h
        exact absurd rfl hleaf
      | cons first others =>
        by_cases hfirst : first = name
        · subst hfirst
          cases hchild : entries.lookup first with
          | some child =>
            rw [get?_put_cons_self hchild] at h
            rcases ih h with ⟨rfl, rfl⟩ | hget
            · exact .inl ⟨rfl, rfl⟩
            · exact .inr (by rw [get?_dir_cons, hchild, Option.bind_some, hget])
          | none =>
            by_cases hrest : rest = []
            · rw [hrest, put_singleton, get?_dir_cons, lookup_setEntry_self, Option.bind_some] at h
              cases others with
              | nil => exact .inl ⟨by rw [hrest], by simpa using h.symm⟩
              | cons second others => simp [hnew.get?_cons] at h
            · rw [put_cons_of_lookup_none hchild hrest] at h
              exact .inr h
        · rw [get?_put_cons_of_ne hfirst] at h
          exact .inr h
    · rw [put_of_not_isDir hroot (by simp)] at h
      exact .inr h

/-- Two nodes without entries can be replaced in either order. -/
theorem put_comm {former latter : Node} (hne : p ≠ q) (hp : root.get? p = some former)
    (hformer : ¬ former.isDir) (hq : root.get? q = some latter) (hlatter : ¬ latter.isDir)
    (a b : Node) : put a (put b root p) q = put b (put a root q) p := by
  induction p generalizing root q with
  | nil =>
    cases q with
    | nil => exact absurd rfl hne
    | cons name rest =>
      obtain ⟨entries, -, rfl, -⟩ := get?_cons_eq_some_iff.1 hq
      obtain rfl : Node.dir entries = former := by simpa using hp
      exact absurd rfl hformer
  | cons name rest ih =>
    obtain ⟨entries, child, rfl, hchild, hrest⟩ := get?_cons_eq_some_iff.1 hp
    cases q with
    | nil =>
      obtain rfl : Node.dir entries = latter := by simpa using hq
      exact absurd rfl hlatter
    | cons first others =>
      obtain ⟨_, found, ⟨⟩, hfound, hothers⟩ := get?_cons_eq_some_iff.1 hq
      rw [put_cons_of_lookup hchild, put_cons_of_lookup hfound]
      by_cases hfirst : first = name
      · subst hfirst
        obtain rfl : found = child := Option.some.inj (hfound.symm.trans hchild)
        rw [put_cons_of_lookup (lookup_setEntry_self _ _ _),
          put_cons_of_lookup (lookup_setEntry_self _ _ _), setEntry_setEntry, setEntry_setEntry,
          ih (fun h => hne (by rw [h])) hrest hothers]
      · have hkeptFound := (lookup_setEntry_of_ne hfirst (put b child rest) entries).trans hfound
        have hkeptChild :=
          (lookup_setEntry_of_ne (Ne.symm hfirst) (put a found others) entries).trans hchild
        rw [put_cons_of_lookup hkeptFound, put_cons_of_lookup hkeptChild,
          setEntry_comm hfirst hfound hchild]

end Put

/-- Whether something holds of the targets of all links in a tree. -/
def AllLinks (P : Path → Prop) (root : Node) : Prop :=
  ∀ place target, root.get? place = some (.link target) → P target

section AllLinks

variable {P : Path → Prop}

theorem allLinks_file (bytes : ByteArray) (executable : Bool) :
    AllLinks P (.file bytes executable) := by
  rintro (_ | _) target h <;> simp [get?] at h

theorem allLinks_link {target : Path} (h : P target) : AllLinks P (.link target) := by
  rintro (_ | _) target hget
  · obtain rfl : target = _ := by simpa using hget.symm
    exact h
  · simp [get?] at hget

theorem allLinks_dir_nil : AllLinks P (.dir []) := by
  rintro (_ | _) target h <;> simp [get?] at h

theorem allLinks_dir_cons (hnode : AllLinks P node) (hentries : AllLinks P (.dir entries)) :
    AllLinks P (.dir ((name, node) :: entries)) := by
  rintro (_ | ⟨other, rest⟩) target h
  · simp at h
  · rw [get?_dir_cons, List.lookup_cons] at h
    split at h
    · exact hnode rest target h
    · exact hentries (other :: rest) target h

end AllLinks

/-- Nodes of one kind.  Devices are the same, links lead to the same; what files and directories
hold may differ. -/
inductive Alike : Node → Node → Prop
  | file (bytes bytes' : ByteArray) (executable executable' : Bool) :
    Alike (.file bytes executable) (.file bytes' executable')
  | device (d : Device) : Alike (.device d) (.device d)
  | link (target : Path) : Alike (.link target) (.link target)
  | dir (entries entries' : List (Text × Node)) : Alike (.dir entries) (.dir entries')

theorem Alike.refl (node : Node) : Alike node node := by
  cases node <;> constructor

theorem Alike.trans {a b c : Node} (hab : Alike a b) (hbc : Alike b c) : Alike a c := by
  cases hab <;> cases hbc <;> constructor

theorem Alike.isDir_eq (h : Alike old new) : new.isDir = old.isDir := by
  cases h <;> rfl

/-- Wherever a tree has a node, the other one has a node of that kind. -/
def Keeps (before after : Node) : Prop :=
  ∀ p node, before.get? p = some node → ∃ node', after.get? p = some node' ∧ Alike node node'

theorem Keeps.refl (root : Node) : Keeps root root :=
  fun _ node h => ⟨node, h, .refl node⟩

theorem Keeps.trans {a b c : Node} (hab : Keeps a b) (hbc : Keeps b c) : Keeps a c := by
  intro p node h
  obtain ⟨mid, hmid, hlike⟩ := hab p node h
  obtain ⟨last, hlast, hlike'⟩ := hbc p mid hmid
  exact ⟨last, hlast, hlike.trans hlike'⟩

/-- What replaces a node of its kind, or takes a free place, leaves the rest as it was. -/
theorem keeps_put (h : ∀ old, root.get? p = some old → ¬ old.isDir ∧ Alike old new) :
    Keeps root (put new root p) := by
  induction p generalizing root with
  | nil =>
    obtain ⟨hleaf, hlike⟩ := h root (get?_nil root)
    intro q node hq
    cases q with
    | nil =>
      obtain rfl : root = node := by simpa using hq
      exact ⟨new, by simp, hlike⟩
    | cons first others =>
      obtain ⟨entries, -, rfl, -⟩ := get?_cons_eq_some_iff.1 hq
      exact absurd rfl hleaf
  | cons name rest ih =>
    by_cases hroot : root.isDir
    · obtain ⟨entries, rfl⟩ := isDir_iff.1 hroot
      intro q node hq
      cases q with
      | nil =>
        obtain rfl : Node.dir entries = node := by simpa using hq
        obtain ⟨entries', hput⟩ := exists_put_cons new entries name rest
        exact ⟨_, get?_nil _, hput ▸ .dir entries entries'⟩
      | cons first others =>
        by_cases hfirst : first = name
        · subst hfirst
          obtain ⟨_, child, ⟨⟩, hchild, hothers⟩ := get?_cons_eq_some_iff.1 hq
          rw [get?_put_cons_self hchild]
          refine ih (fun old hold => h old ?_) others node hothers
          rw [get?_dir_cons, hchild, Option.bind_some, hold]
        · exact ⟨node, by rwa [get?_put_cons_of_ne hfirst], .refl node⟩
    · rw [put_of_not_isDir hroot (by simp)]
      exact .refl root

end Optable.Node
