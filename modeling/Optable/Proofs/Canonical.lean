import Mathlib.Data.List.Basic
import Optable.Proofs.Comparison
import Optable.Proofs.Components
/-!
# Canonical paths

The names in a sound tree are those that a path can spell.  So the path of a place leads to that
place, without a link or a dot on the way, and is its own canonical form.  What is seen from it is
what is seen from every other path that leads there, except that it takes fewer links.
-/

namespace Optable

open FileTree

/-- A name that an entry of a directory can have. -/
structure IsName (name : Text) : Prop where
  ofSegment?_eq : Path.Component.ofSegment? name = some (.name name)
  slash_notMem : '/' ∉ name
  nul_notMem : '\x00' ∉ name
  short : ¬ Text.byteSize name > nameLimit

/-- A node whose directories hold entries with such names, no two of them with the same name. -/
inductive Node.IsSound : Node → Prop
  | file (bytes : ByteArray) (executable : Bool) : IsSound (.file bytes executable)
  | device (d : Device) : IsSound (.device d)
  | link (target : Path) : IsSound (.link target)
  | dir {entries : List (Text × Node)} (hnames : ∀ e ∈ entries, IsName e.1)
    (hnodup : (entries.map Prod.fst).Nodup) (hentries : ∀ e ∈ entries, e.2.IsSound) :
    IsSound (.dir entries)

instance (name : Text) : Decidable (IsName name) :=
  decidable_of_iff (Path.Component.ofSegment? name = some (.name name) ∧ '/' ∉ name ∧
      '\x00' ∉ name ∧ ¬ Text.byteSize name > nameLimit)
    ⟨fun ⟨hname, hslash, hnul, hshort⟩ => ⟨hname, hslash, hnul, hshort⟩,
      fun h => ⟨h.ofSegment?_eq, h.slash_notMem, h.nul_notMem, h.short⟩⟩

theorem IsName.ne_nil {name : Text} (h : IsName name) : name ≠ [] := by
  rintro rfl
  cases h.ofSegment?_eq

theorem IsName.ne_dots {name : Text} (h : IsName name) : ¬ (name = ['.'] ∨ name = ['.', '.']) := by
  rintro (rfl | rfl)
  · cases h.ofSegment?_eq
  · cases h.ofSegment?_eq

namespace Node

variable {root node : Node} {entries : List (Text × Node)} {place names : List Text} {name : Text}

theorem isSound_file (bytes : ByteArray) (executable : Bool) :
    (Node.file bytes executable).IsSound := .file bytes executable

theorem isSound_link (target : Path) : (Node.link target).IsSound := .link target

theorem isSound_dir_iff :
    (Node.dir entries).IsSound ↔ (∀ e ∈ entries, IsName e.1) ∧ (entries.map Prod.fst).Nodup ∧
      ∀ e ∈ entries, e.2.IsSound := by
  constructor
  · intro h
    cases h with
    | dir hnames hnodup hentries => exact ⟨hnames, hnodup, hentries⟩
  · rintro ⟨hnames, hnodup, hentries⟩
    exact .dir hnames hnodup hentries

theorem isSound_dir_nil : (Node.dir []).IsSound := by
  simp [isSound_dir_iff]

theorem isSound_dir_cons :
    (Node.dir ((name, node) :: entries)).IsSound ↔
      (IsName name ∧ name ∉ entries.map Prod.fst) ∧ node.IsSound ∧ (Node.dir entries).IsSound := by
  rw [isSound_dir_iff, isSound_dir_iff, List.forall_mem_cons, List.forall_mem_cons, List.map_cons,
    List.nodup_cons]
  tauto

theorem IsSound.isSound_of_get? (h : root.IsSound) (hget : root.get? place = some node) :
    node.IsSound ∧ ∀ name ∈ place, IsName name := by
  induction place generalizing root with
  | nil =>
    obtain rfl : root = node := by simpa using hget
    exact ⟨h, by simp⟩
  | cons name rest ih =>
    obtain ⟨entries, child, rfl, hchild, hrest⟩ := get?_cons_eq_some_iff.1 hget
    obtain ⟨before, after, rfl, -⟩ := List.lookup_eq_some_iff.1 hchild
    obtain ⟨hnames, -, hentries⟩ := isSound_dir_iff.1 h
    have hmem : (name, child) ∈ before ++ (name, child) :: after := by simp
    obtain ⟨hnode, hbelow⟩ := ih (hentries _ hmem) hrest
    exact ⟨hnode, List.forall_mem_cons.2 ⟨hnames _ hmem, hbelow⟩⟩

theorem IsSound.isName (h : root.IsSound) (hget : root.get? place = some node) :
    ∀ name ∈ place, IsName name := (h.isSound_of_get? hget).2

/-- Only directories have something below them. -/
theorem exists_dir_of_get?_append (h : root.get? (place ++ names) = some node)
    (hnames : names ≠ []) : ∃ entries, root.get? place = some (.dir entries) := by
  rw [get?_append] at h
  obtain ⟨above, habove, hbelow⟩ := Option.bind_eq_some_iff.1 h
  obtain ⟨name, rest, rfl⟩ := List.exists_cons_of_ne_nil hnames
  obtain ⟨entries, -, rfl, -⟩ := get?_cons_eq_some_iff.1 hbelow
  exact ⟨entries, habove⟩

theorem isDir_of_any (h : (root.get? place).any Node.isDir) : root.isDir := by
  obtain ⟨entries, hentries⟩ := any_isDir_iff.1 h
  cases place with
  | nil => simpa using h
  | cons name place =>
    obtain ⟨entries, -, rfl, -⟩ := get?_cons_eq_some_iff.1 hentries
    rfl

end Node

/-! ## How places are spelled -/

theorem Text.byteSize_append (s t : Text) :
    Text.byteSize (s ++ t) = Text.byteSize s + Text.byteSize t := by
  have hfrom (u : Text) (n : Nat) :
      u.foldl (fun n c => n + c.utf8Size) n = n + Text.byteSize u := by
    unfold Text.byteSize
    induction u generalizing n with
    | nil => rfl
    | cons c u ih =>
      rw [List.foldl_cons, List.foldl_cons, ih, ih (0 + _), Nat.zero_add, Nat.add_assoc]
  rw [Text.byteSize, List.foldl_append, hfrom]
  rfl

theorem Text.byteSize_le_of_isPrefix {s t : Text} (h : s <+: t) :
    Text.byteSize s ≤ Text.byteSize t := by
  obtain ⟨u, rfl⟩ := h
  rw [Text.byteSize_append]
  exact Nat.le_add_right _ _

namespace FileTree

section Spelling

variable {place names : List Text} {name : Text} {p : Path} {slashes : Nat}

/-- Names with a slash in front of each. -/
def descent (names : List Text) : Text := names.flatMap ('/' :: ·)

theorem descent_append (place names : List Text) :
    descent (place ++ names) = descent place ++ descent names := List.flatMap_append

theorem slash_cons_intercalate (h : names ≠ []) :
    '/' :: List.intercalate ['/'] names = descent names := by
  induction names with
  | nil => exact absurd rfl h
  | cons name names ih =>
    cases names with
    | nil => simp [descent]
    | cons next names =>
      have hrest := ih (List.cons_ne_nil _ _)
      rw [List.intercalate_cons_cons, List.append_assoc, List.singleton_append, hrest]
      rfl

theorem text_pathOf (h : names ≠ []) : (pathOf names).text = descent names :=
  slash_cons_intercalate h

theorem isAbsolute_pathOf (names : List Text) : (pathOf names).isAbsolute := rfl

theorem pathOf_isPrefix (place names : List Text) :
    (pathOf place).text <+: (pathOf (place ++ names)).text := by
  by_cases hplace : place = []
  · subst hplace
    exact ⟨_, rfl⟩
  · rw [text_pathOf hplace, text_pathOf (by simp [hplace]), descent_append]
    exact List.prefix_append _ _

theorem not_exceeds_iff :
    ¬ exceeds place slashes ↔ Text.byteSize (pathOf place).text + slashes ≤ pathLimit := by
  rw [exceeds, decide_eq_true_iff, Nat.not_lt]

theorem not_exceeds_of_append (h : ¬ exceeds (place ++ names) slashes) :
    ¬ exceeds place slashes := by
  rw [not_exceeds_iff] at *
  have hle := Text.byteSize_le_of_isPrefix (pathOf_isPrefix place names)
  omega

/-- A relative path seen from a place stands behind one more slash. -/
theorem text_join_pathOf (hplace : ∀ name ∈ place, IsName name) (hp : p.isAbsolute = false) :
    ((pathOf place).join p).text = descent place ++ '/' :: p.text := by
  by_cases hnil : place = []
  · subst hnil
    rw [Path.join, hp]
    rfl
  · have hlast : (pathOf place).text.getLast? ≠ some '/' := by
      rw [text_pathOf hnil]
      obtain ⟨above, name, rfl⟩ := (List.eq_nil_or_concat place).resolve_left hnil
      have hname : IsName name := hplace name (by simp)
      rw [List.concat_eq_append, descent_append]
      show (descent above ++ ('/' :: name ++ [])).getLast? ≠ _
      rw [List.append_nil, List.getLast?_append_of_ne_nil _ (List.cons_ne_nil _ _),
        List.getLast?_cons_of_ne_nil hname.ne_nil]
      exact fun h => hname.slash_notMem (List.mem_of_getLast? h)
    have hempty : (pathOf place).text.isEmpty = false := rfl
    rw [Path.join, hp, hempty, if_neg Bool.false_ne_true, if_neg (by simpa using hlast),
      text_pathOf hnil]

theorem join_pathOf (hplace : ∀ name ∈ place, IsName name) (hnames : names ≠ [])
    (hrelative : (List.intercalate ['/'] names).head? ≠ some '/') :
    (pathOf place).join ⟨List.intercalate ['/'] names⟩ = pathOf (place ++ names) := by
  have hne : place ++ names ≠ [] := by simp [hnames]
  apply congrArg Path.mk (?_ : ((pathOf place).join _).text = (pathOf (place ++ names)).text)
  rw [text_join_pathOf hplace (by simpa [Path.isAbsolute] using hrelative),
    slash_cons_intercalate hnames, text_pathOf hne, descent_append]

theorem join_pathOf_name (hplace : ∀ name ∈ place, IsName name) (hname : IsName name) :
    (pathOf place).join ⟨name⟩ = pathOf (place ++ [name]) := by
  have hrelative : name.head? ≠ some '/' := fun h =>
    hname.slash_notMem (List.mem_of_mem_head? h)
  have hjoin := join_pathOf hplace (List.cons_ne_nil name []) (by simpa using hrelative)
  simpa using hjoin

/-- The segments of a path that is seen from a place. -/
theorem splitOn_descent_append (hplace : ∀ name ∈ place, IsName name) (t : Text) :
    (descent place ++ '/' :: t).splitOn '/' = [] :: place ++ t.splitOn '/' := by
  induction place with
  | nil => exact Path.splitOn_slash_cons t
  | cons name place ih =>
    obtain ⟨hname, hplace⟩ := List.forall_mem_cons.1 hplace
    have hbehind : ∃ u, descent place ++ '/' :: t = '/' :: u := by
      cases place with
      | nil => exact ⟨t, rfl⟩
      | cons next place => exact ⟨_, rfl⟩
    obtain ⟨u, hu⟩ := hbehind
    have hsegments : u.splitOn '/' = place ++ t.splitOn '/' := by
      have hcons := ih hplace
      rw [hu, Path.splitOn_slash_cons] at hcons
      exact List.cons_inj_right _ |>.1 hcons
    calc (descent (name :: place) ++ '/' :: t).splitOn '/'
        = ('/' :: (name ++ '/' :: u)).splitOn '/' := by
          rw [← hu]
          simp [descent]
      _ = [] :: (name :: u.splitOn '/') := by
          rw [Path.splitOn_slash_cons, List.splitOn_append_cons_self,
            List.splitOn_eq_singleton hname.slash_notMem, List.singleton_append]
      _ = [] :: (name :: place) ++ t.splitOn '/' := by rw [hsegments]; rfl

theorem nul_notMem_descent (hplace : ∀ name ∈ place, IsName name) :
    '\x00' ∉ descent place := by
  intro hmem
  obtain ⟨name, hname, hnul⟩ := List.mem_flatMap.1 hmem
  rcases List.mem_cons.1 hnul with h | h
  · revert h
    decide
  · exact (hplace name hname).nul_notMem h

theorem nul_notMem_pathOf (hplace : ∀ name ∈ place, IsName name) :
    '\x00' ∉ (pathOf place).text := by
  by_cases hnil : place = []
  · subst hnil
    decide
  · rw [text_pathOf hnil]
    exact nul_notMem_descent hplace

end Spelling

/-! ## Where names lead -/

section Names

variable {tree : FileTree} {root node : Node} {aim : Aim} {links left : Nat}
  {place names segments rest : List Text} {name : Text} {p q b : Path} {result : Place}

theorem needsDirectory_cons (h : IsName name) (rest : List Text) :
    needsDirectory (name :: rest) = false := by
  have hname := h.ofSegment?_eq
  unfold needsDirectory
  split <;> simp_all [Path.Component.ofSegment?]

theorem walk_nil_cons (hdir : (root.get? place).any Node.isDir) (rest : List Text) :
    walk root aim links place ([] :: rest) = walk root aim links place rest := by
  obtain ⟨entries, hentries⟩ := any_isDir_iff.1 hdir
  rw [walk_cons, walkSegment, hentries]
  rfl

/-- Names are followed to the place below that they spell. -/
theorem walk_names (hnames : ∀ name ∈ names, IsName name)
    (hget : root.get? (place ++ names) = some node) (hlink : ∀ target, node ≠ .link target)
    (haim : aim ≠ .file)
    (hfits : aim = .spelling →
      ¬ exceeds (place ++ names) (if needsDirectory rest then 1 else 0)) :
    walk root aim links place (names ++ rest) = walk root aim links (place ++ names) rest := by
  induction names generalizing place with
  | nil => rw [List.nil_append, List.append_nil]
  | cons name names ih =>
    obtain ⟨hname, hnames⟩ := List.forall_mem_cons.1 hnames
    obtain ⟨entries, hentries⟩ := Node.exists_dir_of_get?_append hget (List.cons_ne_nil _ _)
    rw [List.append_cons] at hget hfits ⊢
    have hchild : ∃ child, root.get? (place ++ [name]) = some child ∧
        ∀ target, child ≠ .link target := by
      by_cases hnil : names = []
      · rw [hnil, List.append_nil] at hget
        exact ⟨node, hget, hlink⟩
      · obtain ⟨below, hbelow⟩ := Node.exists_dir_of_get?_append hget hnil
        exact ⟨_, hbelow, fun _ => Node.noConfusion⟩
    obtain ⟨child, hchild, hchildLink⟩ := hchild
    have hspelled : ¬ (aim = .spelling && exceeds (place ++ [name]) 0) := by
      intro h
      obtain ⟨hspelling, h⟩ : aim = .spelling ∧ exceeds (place ++ [name]) 0 := by simpa using h
      have hfits := not_exceeds_iff.1 (not_exceeds_of_append (hfits hspelling))
      exact not_exceeds_iff.2 (by omega) h
    -- Of the names only the last one may have to be a directory, for what comes behind it.
    have hneeds : ¬ (aim = .spelling && needsDirectory (names ++ rest) &&
        exceeds (place ++ [name]) 1) := by
      intro h
      obtain ⟨⟨hspelling, hneeds⟩, hexceeds⟩ : (aim = .spelling ∧ needsDirectory (names ++ rest)) ∧
        exceeds (place ++ [name]) 1 := by simpa using h
      cases names with
      | nil =>
        have hfits := hfits hspelling
        rw [List.nil_append] at hneeds
        rw [hneeds, if_pos rfl, List.append_nil] at hfits
        exact hfits hexceeds
      | cons next names =>
        have hnext : IsName next := hnames next List.mem_cons_self
        rw [List.cons_append, needsDirectory_cons hnext] at hneeds
        cases hneeds
    have hon : ¬ (aim = .file && isEndSlash (names ++ rest)) := by simp [haim]
    rw [← ih hnames hget hfits, List.cons_append, walk_cons, walkSegment, hentries]
    simp only [hname.ofSegment?_eq, if_neg hon, if_neg hname.short, if_neg hspelled,
      ← Node.get?_append_singleton hentries, hchild]
    cases child with
    | link target => exact absurd rfl (hchildLink target)
    | _ => simp only [if_neg hneeds]

/-- The node that a path leads to is no link. -/
theorem Way.ne_link (h : Way root aim links place segments result) (haim : aim ≠ .entry)
    (hroot : root.isDir) (hplace : ∀ target, root.get? place ≠ some (.link target))
    (target : Path) : result.node? ≠ some (.link target) := by
  have hdirectory {place : List Text} (hdir : (root.get? place).any Node.isDir) (target : Path) :
      root.get? place ≠ some (.link target) := by
    obtain ⟨entries, hentries⟩ := any_isDir_iff.1 hdir
    rw [hentries]
    exact fun h => Node.noConfusion (Option.some.inj h)
  induction h with
  | here hnode =>
    rw [hnode] at hplace
    exact hplace target
  | stay hdir _ _ ih => exact ih (hdirectory hdir)
  | @up _ place _ _ _ hdir _ _ ih =>
    refine ih (hdirectory ?_)
    by_cases hnil : place = []
    · rwa [hnil] at *
    · obtain ⟨entries, hentries⟩ := any_isDir_iff.1 hdir
      rw [← List.dropLast_append_getLast hnil] at hentries
      exact any_isDir_iff.2 (Node.exists_dir_of_get?_append hentries (List.cons_ne_nil _ _))
  | free => exact nofun
  | link _ _ _ hentry => exact absurd hentry haim
  | follow hdir _ _ _ _ ih =>
    refine ih (hdirectory ?_)
    split
    · rwa [Node.get?_nil]
    · exact hdir
  | enter _ _ hnode hlink _ _ ih =>
    refine ih fun target => ?_
    rw [hnode]
    exact fun h => hlink target (Option.some.inj h)

/-- A place that is spelled on the way is short enough. -/
theorem Way.not_exceeds (h : Way root aim links place segments result) (haim : aim = .spelling)
    (hplace : ¬ exceeds place 0) (node : Node) :
    result = .found names node → ¬ exceeds names 0 := by
  induction h with
  | here =>
    rintro ⟨⟩
    exact hplace
  | stay _ _ _ ih => exact ih hplace
  | @up _ place _ _ _ _ _ _ ih =>
    by_cases hnil : place = []
    · subst hnil
      exact ih hplace
    · rw [← List.dropLast_append_getLast hnil] at hplace
      exact ih (not_exceeds_of_append hplace)
  | free => exact nofun
  | link _ _ _ hentry =>
    rw [hentry] at haim
    cases haim
  | follow _ _ _ _ _ ih =>
    refine ih ?_
    split
    · decide
    · exact hplace
  | enter _ hstep _ _ _ _ ih => exact ih (by simpa [haim] using hstep.spelled)

theorem Way.any_isDir {segment : Text}
    (h : Way root aim links place (segment :: rest) result) :
    (root.get? place).any Node.isDir := by
  cases h <;> assumption

end Names

section Seen

variable {tree : FileTree} {root node : Node} {links : Nat}
  {place names mid segments : List Text} {p q b : Path} {result : Place}

/-- Behind the place that segments lead to, it goes on from there, with the links that are left. -/
theorem exists_walk_append (h : Way root .target links place segments (.found mid node))
    (rest : List Text) :
    ∃ left ≤ links, walk root .target links place (segments ++ rest) =
      walk root .target left mid rest := by
  generalize haim : Aim.target = aim at h
  generalize hresult : Place.found mid node = result at h
  induction h with subst haim
  | here =>
    cases hresult
    exact ⟨_, Nat.le_refl _, rfl⟩
  | stay hdir hsegment _ ih =>
    obtain ⟨left, hle, heq⟩ := ih hresult
    obtain ⟨entries, hentries⟩ := any_isDir_iff.1 hdir
    refine ⟨left, hle, ?_⟩
    rw [List.cons_append, walk_cons, walkSegment, hentries, ← heq]
    simp only [hsegment]
  | up hdir hsegment _ ih =>
    obtain ⟨left, hle, heq⟩ := ih hresult
    obtain ⟨entries, hentries⟩ := any_isDir_iff.1 hdir
    refine ⟨left, hle, ?_⟩
    rw [List.cons_append, walk_cons, walkSegment, hentries, ← heq]
    simp only [hsegment]
  | free => cases hresult
  | link _ _ _ hentry => cases hentry
  | follow hdir hstep hnode _ _ ih =>
    obtain ⟨left, hle, heq⟩ := ih hresult
    obtain ⟨entries, hentries⟩ := any_isDir_iff.1 hdir
    refine ⟨left, Nat.le_succ_of_le hle, ?_⟩
    rw [List.cons_append, walk_cons, walkSegment, hentries, ← heq, List.append_assoc]
    simp [hstep.name, hstep.short, ← Node.get?_append_singleton hentries, hnode, walkBehind_succ]
  | @enter _ _ _ _ node _ hdir hstep hnode hlink _ _ ih =>
    obtain ⟨left, hle, heq⟩ := ih hresult
    obtain ⟨entries, hentries⟩ := any_isDir_iff.1 hdir
    refine ⟨left, hle, ?_⟩
    rw [List.cons_append, walk_cons, walkSegment, hentries, ← heq]
    simp only [hstep.name, ← Node.get?_append_singleton hentries, hnode]
    cases node with
    | link target => exact absurd rfl (hlink target)
    | _ => simp [hstep.short]

/-- A relative path behind another one has the segments of both, but for a slash between them. -/
theorem splitOn_join (hp : p.text ≠ []) (hb : b.isAbsolute = false) :
    (p.join b).text.splitOn '/' = p.text.splitOn '/' ++ b.text.splitOn '/' ∨
      ∃ front, p.text.splitOn '/' = front ++ [[]] ∧
        (p.join b).text.splitOn '/' = front ++ b.text.splitOn '/' := by
  have hempty : p.text.isEmpty = false := by simpa using hp
  rw [Path.join, hb, hempty, Bool.false_or, if_neg Bool.false_ne_true]
  split
  · next hlast =>
    obtain ⟨front, hfront⟩ := List.getLast?_eq_some_iff.1 (of_decide_eq_true hlast)
    refine .inr ⟨front.splitOn '/', ?_, ?_⟩
    · rw [hfront, List.splitOn_append_cons_self]
      rfl
    · show (p.text ++ b.text).splitOn '/' = _
      rw [hfront, List.append_assoc, List.singleton_append, List.splitOn_append_cons_self]
  · exact .inl (List.splitOn_append_cons_self _ _)

theorem canonical_eq_ok_iff :
    tree.canonical p = .ok q ↔
      '\x00' ∉ p.text ∧ (p.isAbsolute ∨ tree.currentPath?.isSome) ∧
        ∃ names node, tree.follow .spelling p = .ok (.found names node) ∧ pathOf names = q := by
  unfold canonical
  by_cases hnul : '\x00' ∈ p.text
  · simp [hnul]
  rw [if_neg hnul]
  by_cases hseen : p.isAbsolute ∨ tree.currentPath?.isSome
  · have hpass : ¬ (!p.isAbsolute && tree.currentPath?.isNone) := by
      rcases hseen with habsolute | hcurrent
      · simp [habsolute]
      · simp [Option.isNone_eq_false_iff.2 hcurrent]
    rw [if_neg hpass]
    cases hfollow : tree.follow .spelling p with
    | error e => simp
    | ok place => cases place <;> simp [hnul, hseen]
  · have hstop : (!p.isAbsolute && tree.currentPath?.isNone) := by simpa using hseen
    rw [if_pos hstop]
    simp [hseen]

/-- Where a path starts from, and every other one that is as absolute. -/
theorem exists_start (h : p.isAbsolute ∨ tree.currentPath?.isSome) :
    ∃ start, (start = [] ∨ tree.current = .place start) ∧ ∀ aim (p' : Path), p'.text ≠ [] →
      p'.isAbsolute = p.isAbsolute →
      tree.follow aim p' = walk tree.root aim linkLimit start (p'.text.splitOn '/') := by
  by_cases habsolute : p.isAbsolute
  · refine ⟨[], .inl rfl, fun aim p' hne hsame => ?_⟩
    rw [follow, if_neg (by simpa using hne), hsame]
    exact if_pos habsolute
  · have hcurrent := h.resolve_left habsolute
    unfold currentPath? at hcurrent
    split at hcurrent
    · next start hstart =>
      refine ⟨start, .inr hstart, fun aim p' hne hsame => ?_⟩
      rw [follow, if_neg (by simpa using hne), hsame, hstart]
      exact if_neg habsolute
    · cases hcurrent

theorem follow_of_isAbsolute (h : p.isAbsolute) (aim : Aim) :
    tree.follow aim p = walk tree.root aim linkLimit [] (p.text.splitOn '/') := by
  have hne : p.text ≠ [] := by
    intro hnil
    rw [Path.isAbsolute, hnil] at h
    cases h
  rw [follow, if_neg (by simpa using hne)]
  exact if_pos h

theorem resolve_of_walk (habsolute : p.isAbsolute) (hnul : '\x00' ∉ p.text)
    (hshort : Text.byteSize p.text ≤ pathLimit) (hsplit : p.text.splitOn '/' = segments)
    (h : walk tree.root aim linkLimit [] segments = .ok result) :
    tree.resolve aim p = .ok result := by
  refine resolve_eq_ok_iff.2 ⟨hnul, hshort, ?_⟩
  rw [follow_of_isAbsolute habsolute, hsplit]
  exact h

/-- How a path is made canonical: the place that it starts from, and the place and the node that it
leads to. -/
structure Spells (tree : FileTree) (p : Path) (start names : List Text) (node : Node) : Prop where
  start_eq : start = [] ∨ tree.current = .place start
  follow_eq : ∀ aim (p' : Path), p'.text ≠ [] → p'.isAbsolute = p.isAbsolute →
    tree.follow aim p' = walk tree.root aim linkLimit start (p'.text.splitOn '/')
  way : Way tree.root .spelling linkLimit start (p.text.splitOn '/') (.found names node)
  ne_nil : p.text ≠ []
  nul_notMem : '\x00' ∉ p.text

theorem exists_spells (h : tree.canonical p = .ok q) :
    ∃ start names node, Spells tree p start names node ∧ pathOf names = q := by
  obtain ⟨hnul, hseen, names, node, hfollow, hq⟩ := canonical_eq_ok_iff.1 h
  obtain ⟨start, hstart, hwalk⟩ := exists_start hseen
  have hne : p.text ≠ [] := by
    intro hnil
    rw [follow, if_pos (by simpa using hnil)] at hfollow
    cases hfollow
  rw [hwalk .spelling p hne rfl] at hfollow
  exact ⟨start, names, node, ⟨hstart, hwalk, way_of_walk hfollow, hne, hnul⟩, hq⟩

namespace Spells

variable {start : List Text} (h : Spells tree p start names node)
include h

theorem any_isDir_start : (tree.root.get? start).any Node.isDir := by
  obtain ⟨segment, rest, hsegments⟩ := List.exists_cons_of_ne_nil (List.splitOn_ne_nil '/' p.text)
  have hway := h.way
  rw [hsegments] at hway
  exact hway.any_isDir

theorem isDir_root : tree.root.isDir := Node.isDir_of_any h.any_isDir_start

theorem get?_eq : tree.root.get? names = some node := h.way.isIn

theorem ne_link (target : Path) : node ≠ .link target := by
  rintro rfl
  refine h.way.ne_link (by decide) h.isDir_root (fun target => ?_) target rfl
  obtain ⟨entries, hentries⟩ := any_isDir_iff.1 h.any_isDir_start
  rw [hentries]
  exact nofun

end Spells

/-- What is seen from the path of a place is found from there. -/
theorem follow_pathOf_join (hsound : tree.root.IsSound) (hroot : tree.root.isDir)
    (hnode : tree.root.get? names = some node) (hlink : ∀ target, node ≠ .link target)
    (hb : b.isAbsolute = false) {aim : Aim} (haim : aim ≠ .file)
    (hfits : aim = .spelling → ¬ exceeds names 1) :
    tree.follow aim ((pathOf names).join b) =
      walk tree.root aim linkLimit names (b.text.splitOn '/') := by
  have hnames := hsound.isName hnode
  have hdir : (tree.root.get? []).any Node.isDir := by simpa using hroot
  rw [follow_of_isAbsolute (Path.isAbsolute_join (isAbsolute_pathOf names)),
    text_join_pathOf hnames hb, splitOn_descent_append hnames, List.cons_append,
    walk_nil_cons hdir]
  have hget : tree.root.get? ([] ++ names) = some node := hnode
  refine walk_names hnames hget hlink haim fun hspelling => ?_
  have hshort := not_exceeds_iff.1 (hfits hspelling)
  rw [not_exceeds_iff, List.nil_append]
  split <;> omega

theorem splitOn_pathOf (hnames : ∀ name ∈ names, IsName name) (hne : names ≠ []) :
    (pathOf names).text.splitOn '/' = [] :: names := by
  obtain ⟨above, name, rfl⟩ := (List.eq_nil_or_concat names).resolve_left hne
  rw [List.concat_eq_append] at *
  obtain ⟨habove, hname⟩ := List.forall_mem_append.1 hnames
  have htext : descent [name] = '/' :: name := List.append_nil _
  rw [text_pathOf hne, descent_append, htext, splitOn_descent_append habove,
    List.splitOn_eq_singleton (hname name List.mem_cons_self).slash_notMem]
  rfl

theorem eq_of_pathOf_eq (hplace : ∀ name ∈ place, IsName name)
    (hnames : ∀ name ∈ names, IsName name)
    (hne : names ≠ []) (h : pathOf place = pathOf names) : place = names := by
  have hsegments : (pathOf place).text.splitOn '/' = [] :: names := by
    rw [h, splitOn_pathOf hnames hne]
  by_cases hnil : place = []
  · subst hnil
    obtain rfl : [[]] = names := (List.cons.inj hsegments).2
    exact absurd rfl (hnames [] List.mem_cons_self).ne_nil
  · rw [splitOn_pathOf hplace hnil] at hsegments
    exact (List.cons.inj hsegments).2

/-- The path of a place is its own canonical form. -/
theorem canonical_pathOf (hsound : tree.root.IsSound) (hroot : tree.root.isDir)
    (hnode : tree.root.get? names = some node) (hlink : ∀ target, node ≠ .link target)
    (hfits : ¬ exceeds names 0) : tree.canonical (pathOf names) = .ok (pathOf names) := by
  have hnames := hsound.isName hnode
  have hdir : (tree.root.get? []).any Node.isDir := by simpa using hroot
  refine canonical_eq_ok_iff.2 ⟨nul_notMem_pathOf hnames, .inl (isAbsolute_pathOf names), names,
    node, ?_, rfl⟩
  rw [follow_of_isAbsolute (isAbsolute_pathOf names)]
  by_cases hne : names = []
  · subst hne
    show walk tree.root .spelling linkLimit [] [[], []] = _
    rw [walk_nil_cons hdir, walk_nil_cons hdir, walk_nil, hnode]
  · have hget : tree.root.get? ([] ++ names) = some node := hnode
    have hwalk : walk tree.root .spelling linkLimit [] (names ++ []) =
        walk tree.root .spelling linkLimit names [] :=
      walk_names hnames hget hlink (by decide) fun _ => hfits
    rw [splitOn_pathOf hnames hne, walk_nil_cons hdir, ← List.append_nil names, hwalk, walk_nil,
      List.append_nil, hnode]

/-- The canonical form of a path is its own canonical form. -/
theorem canonical_canonical (hsound : tree.root.IsSound)
    (hcurrent : ∀ names, tree.current = .place names → ¬ exceeds names 0)
    (h : tree.canonical p = .ok q) : tree.canonical q = .ok q := by
  obtain ⟨start, names, node, hspells, rfl⟩ := exists_spells h
  refine canonical_pathOf hsound hspells.isDir_root hspells.get?_eq hspells.ne_link ?_
  refine hspells.way.not_exceeds rfl ?_ node rfl
  rcases hspells.start_eq with rfl | hstart
  · decide
  · exact hcurrent start hstart

/-- What is seen from a path is what is seen from its canonical form, except that links may have
been spent on the way to it. -/
theorem resolve_join_canonical (hsound : tree.root.IsSound) (h : tree.canonical p = .ok q)
    (hb : b.isAbsolute = false) (hlong : Text.byteSize (p.join b).text ≤ pathLimit)
    (hlong' : Text.byteSize (q.join b).text ≤ pathLimit) :
    tree.resolve .target (p.join b) = tree.resolve .target (q.join b) ∨
      tree.resolve .target (p.join b) = .error (.os .tooManyLinks) := by
  obtain ⟨start, names, node, hspells, rfl⟩ := exists_spells h
  have hway : Way tree.root .target linkLimit start (p.text.splitOn '/') (.found names node) :=
    hspells.way.target nofun
  have hne : (p.join b).text ≠ [] := by
    obtain ⟨slash, -, htext⟩ := Path.exists_text_join p hb
    simp [htext, hspells.ne_nil]
  have hfollow := hspells.follow_eq .target (p.join b) hne
    (Path.isAbsolute_join_eq hb hspells.ne_nil)
  -- Behind the place that both lead to they go on with the same segments, but not with as many
  -- links.
  have hwalk : ∃ left ≤ linkLimit, tree.follow .target (p.join b) =
      walk tree.root .target left names (b.text.splitOn '/') := by
    obtain ⟨left, hle, hleft⟩ := exists_walk_append hway (b.text.splitOn '/')
    refine ⟨left, hle, ?_⟩
    rw [hfollow, ← hleft]
    obtain hsegments | ⟨front, hfront, hsegments⟩ := splitOn_join hspells.ne_nil hb
    · rw [hsegments]
    · rw [hsegments, hfront, List.append_assoc, List.singleton_append,
        walk_append_nil_cons (List.splitOn_ne_nil _ _)]
  obtain ⟨left, hle, hleft⟩ := hwalk
  have hnames := hsound.isName hspells.get?_eq
  have hnul : '\x00' ∈ (p.join b).text ↔ '\x00' ∈ ((pathOf names).join b).text := by
    rw [Path.mem_text_join_iff hb (by decide), Path.mem_text_join_iff hb (by decide)]
    exact or_congr_left (iff_of_false hspells.nul_notMem (nul_notMem_pathOf hnames))
  have hcanonical := follow_pathOf_join hsound hspells.isDir_root hspells.get?_eq hspells.ne_link
    hb (show Aim.target ≠ .file by decide) nofun
  unfold resolve
  rw [if_neg (Nat.not_lt.2 hlong), if_neg (Nat.not_lt.2 hlong'), hleft, hcanonical]
  by_cases hmem : '\x00' ∈ (p.join b).text
  · rw [if_pos hmem, if_pos (hnul.1 hmem)]
    exact .inl rfl
  · rw [if_neg hmem, if_neg (mt hnul.2 hmem)]
    rcases walk_of_le tree.root .target names (b.text.splitOn '/') hle with hsame | hmany
    · exact .inl (by rw [hsame])
    · exact .inr (by rw [hmany]; rfl)

end Seen

end FileTree
end Optable
