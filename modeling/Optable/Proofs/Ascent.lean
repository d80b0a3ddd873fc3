import Optable.Proofs.Parent
import Optable.Proofs.Splitting
/-!
# What lies beside a path

What lies beside the place that a path leads to is found from the place above it, and by the parent
of the path where that leads there, too.  It does if the path ends in a name that is no link.  From
a pair of dots or a link the parent of the path may lead anywhere, as it is found by its spelling.
-/

namespace Optable.FileTree

open Optable.Path (Stays Upper stays_singleton)

section Ways

variable {root node node' : Node} {aim : Aim} {links : Nat}
  {place mid names front rest stays : List Text} {name segment : Text} {result : Place}

theorem walk_up_cons (hdir : (root.get? place).any Node.isDir) :
    walk root aim links place (['.', '.'] :: rest) = walk root aim links place.dropLast rest := by
  obtain ⟨entries, hentries⟩ := any_isDir_iff.1 hdir
  rw [walk_cons, walkSegment, hentries]
  rfl

theorem walk_stays_append (hstays : Stays stays) (hdir : (root.get? place).any Node.isDir) :
    walk root aim links place (stays ++ rest) = walk root aim links place rest := by
  induction stays with
  | nil => rfl
  | cons segment stays ih =>
    obtain ⟨hsegment, hstays⟩ := List.forall_mem_cons.1 hstays
    obtain ⟨entries, hentries⟩ := any_isDir_iff.1 hdir
    rw [List.cons_append, walk_cons, walkSegment, hentries]
    simp only [hsegment, ih hstays]

theorem Way.eq_of_stays (h : Way root aim links place stays (.found mid node))
    (hstays : Stays stays) (hdir : (root.get? place).any Node.isDir) : mid = place := by
  obtain ⟨entries, hentries⟩ := any_isDir_iff.1 hdir
  have hwalk := walk_of_way h
  rw [← List.append_nil stays, walk_stays_append hstays hdir, walk_nil, hentries] at hwalk
  exact (Place.found.inj (Except.ok.inj hwalk)).1.symm

theorem Way.eq_of_up (h : Way root aim links place [['.', '.']] (.found mid node)) :
    mid = place.dropLast := by
  have hwalk := walk_of_way h
  rw [walk_up_cons h.any_isDir, walk_nil] at hwalk
  split at hwalk
  · exact (Place.found.inj (Except.ok.inj hwalk)).1.symm
  · cases hwalk

theorem Way.isStep (h : Way root aim links place (segment :: rest) result)
    (hsegment : Path.Component.ofSegment? segment = some (.name segment)) :
    IsStep aim place segment rest := by
  cases h with
  | stay _ hstay =>
    rw [hsegment] at hstay
    cases hstay
  | up _ hup =>
    rw [hsegment] at hup
    cases hup
  | free _ hstep => exact hstep
  | link _ hstep => exact hstep
  | follow _ hstep => exact hstep
  | enter _ hstep => exact hstep

theorem Way.eq_of_entry (h : Way root .entry links place [segment] (.found mid node))
    (hsegment : Path.Component.ofSegment? segment = some (.name segment)) :
    mid = place ++ [segment] := by
  cases h with
  | stay _ hstay =>
    rw [hsegment] at hstay
    cases hstay
  | up _ hup =>
    rw [hsegment] at hup
    cases hup
  | link => rfl
  | follow _ _ _ hon => exact absurd rfl hon
  | enter _ _ _ _ _ hrest =>
    cases hrest
    rfl

/-- Where segments go up from what others in front of them lead to and then to a name, that name is
looked up in a directory above.  If the first segments lead there by themselves, the name can stand
right behind them. -/
theorem exists_ascent (hname : IsName name)
    (h : Way root .spelling links place (front ++ (rest ++ [['.', '.'], name]))
      (.found names node)) :
    ∃ base entries above entries', Way root .target links place front (.found base (.dir entries)) ∧
      Way root .target links place (front ++ (rest ++ [['.', '.']]))
        (.found above (.dir entries')) ∧
      Way root .spelling links above [name] (.found names node) ∧
      (base = above → Way root .spelling links place (front ++ [name]) (.found names node)) := by
  obtain ⟨left, hle, base, entries, hbase, hon, hback⟩ := h.splits (by simp)
  have hup : rest ++ [['.', '.'], name] = (rest ++ [['.', '.']]) ++ [name] := by simp
  rw [hup] at h hon
  rw [← List.append_assoc] at h
  obtain ⟨-, -, above, entries', habove, -, -⟩ := h.splits (List.cons_ne_nil _ _)
  -- Both cuts lead to one directory above, but only the second one counts the links behind the
  -- first segments.
  obtain ⟨left', hle', above', entries'', habove', hon', -⟩ := hon.splits (List.cons_ne_nil _ _)
  obtain ⟨left'', -, hbehind⟩ := hbase.behind habove
  obtain ⟨rfl, -⟩ := Place.found.inj (habove'.eq_of_ways hbehind)
  refine ⟨base, entries, above', entries', hbase, habove, hon'.of_le (Nat.le_trans hle' hle), ?_⟩
  rintro rfl
  exact hback name [] _ hname (hon'.of_le hle')

theorem exists_walk_name (hfront : Way root .target links place front (.found mid node))
    (hdir : (root.get? mid).any Node.isDir) (hstays : Stays stays) (hname : IsName name)
    (hnode : root.get? (mid ++ [name]) = some node') (hlink : ∀ target, node' ≠ .link target)
    (rest : List Text) :
    ∃ left ≤ links, walk root .target links place (front ++ (stays ++ name :: rest)) =
      walk root .target left (mid ++ [name]) rest := by
  obtain ⟨left, hle, hleft⟩ := exists_walk_append hfront (stays ++ name :: rest)
  refine ⟨left, hle, ?_⟩
  rw [hleft, walk_stays_append hstays hdir]
  exact walk_names (List.forall_mem_singleton.2 hname) hnode hlink (by decide) nofun

end Ways

section Beside

variable {tree : FileTree} {node : Node} {start place names front rest : List Text} {name n : Text}
  {p q r u b : Path} {aim : Aim}

/-- Whatever is as absolute as a path is followed from this place. -/
def StartsAt (tree : FileTree) (p : Path) (start : List Text) : Prop :=
  ∀ aim (p' : Path), p'.text ≠ [] → p'.isAbsolute = p.isAbsolute →
    tree.follow aim p' = walk tree.root aim linkLimit start (p'.text.splitOn '/')

theorem exists_startsAt (h : p.isAbsolute ∨ tree.currentPath?.isSome) :
    ∃ start, StartsAt tree p start := by
  obtain ⟨start, -, hstart⟩ := exists_start h
  exact ⟨start, hstart⟩

theorem StartsAt.follow_join (h : StartsAt tree p start) (hupper : Upper p u front rest)
    (hb : b.isAbsolute = false) (hne : b.text ≠ []) :
    tree.follow aim (u.join b) =
      walk tree.root aim linkLimit start (front ++ b.text.splitOn '/') := by
  rw [h aim _ (Path.text_join_ne_nil _ hne) (hupper.isAbsolute_join b hb hne),
    hupper.splitOn_join b hb hne]

theorem StartsAt.follow_join_self (h : StartsAt tree p start) (hupper : Upper p u front rest)
    (hp : p.text ≠ []) (hb : b.isAbsolute = false) (hne : b.text ≠ []) :
    tree.follow aim (p.join b) =
      walk tree.root aim linkLimit start (front ++ (rest ++ b.text.splitOn '/')) := by
  rw [h aim _ (Path.text_join_ne_nil _ hne) (Path.isAbsolute_join_eq hb hp),
    hupper.splitOn_join_self b hb hne]

/-- The path, seen from another one, of a name beside what that one leads to. -/
def beside (name : Text) : Path := ⟨'.' :: '.' :: '/' :: name⟩

/-- Whether a path leads to the directory above by its parent as well, which is found by its
spelling. -/
def LeadsUp (tree : FileTree) (p : Path) : Prop :=
  ∃ above node, tree.follow .target ((p.parent?.getD p).join ⟨['.']⟩) = .ok (.found above node) ∧
    tree.follow .target (p.join ⟨['.', '.']⟩) = .ok (.found above node)

theorem splitOn_beside (hname : IsName name) :
    (beside name).text.splitOn '/' = [['.', '.'], name] := by
  have hsplit := List.splitOn_append_cons_self (a := '/') ['.', '.'] name
  rw [List.splitOn_eq_singleton hname.slash_notMem] at hsplit
  exact hsplit

theorem isAbsolute_name (hname : IsName name) : Path.isAbsolute ⟨name⟩ = false :=
  decide_eq_false fun h => hname.slash_notMem (List.mem_of_mem_head? h)

theorem not_exceeds_slash (h : ¬ exceeds (place ++ [name]) 0) : ¬ exceeds place 1 := by
  by_cases hnil : place = []
  · subst hnil
    decide
  · have hprefix : (pathOf place).text ++ ['/'] <+: (pathOf (place ++ [name])).text := by
      have hname : descent [name] = ['/'] ++ name := List.append_nil _
      rw [text_pathOf hnil, text_pathOf (by simp), descent_append, hname, ← List.append_assoc]
      exact List.prefix_append _ _
    have hle := Text.byteSize_le_of_isPrefix hprefix
    have hslash : Text.byteSize ['/'] = 1 := rfl
    rw [Text.byteSize_append, hslash] at hle
    rw [not_exceeds_iff] at *
    omega

theorem reverse_descent_concat (names : List Text) (name : Text) :
    (descent (names ++ [name])).reverse = name.reverse ++ '/' :: (descent names).reverse := by
  have hname : descent [name] = '/' :: name := List.append_nil _
  rw [descent_append, hname, List.reverse_append, List.reverse_cons, List.append_assoc]
  rfl

theorem dropEmptyEnd_reverse_descent (hnames : ∀ name ∈ names, IsName name) :
    Path.dropEmptyEnd (descent names).reverse = (descent names).reverse := by
  rcases List.eq_nil_or_concat names with rfl | ⟨above, name, rfl⟩
  · rfl
  · rw [List.concat_eq_append] at *
    have hname : IsName name := hnames name (by simp)
    obtain ⟨c, front, hreverse⟩ :=
      List.exists_cons_of_ne_nil (mt List.reverse_eq_nil_iff.1 hname.ne_nil)
    have hslash : '/' ∉ c :: front := by
      rw [← hreverse, List.mem_reverse]
      exact hname.slash_notMem
    rw [reverse_descent_concat, hreverse, List.cons_append]
    unfold Path.dropEmptyEnd
    split
    · next h => exact absurd (List.cons.inj h).1 (by simp_all)
    · next h =>
      obtain ⟨rfl, hbehind⟩ := List.cons.inj h
      cases front with
      | nil => exact absurd (.inl (List.reverse_eq_iff.1 hreverse)) hname.ne_dots
      | cons d front => exact absurd (List.cons.inj hbehind).1 (by simp_all)
    · rfl

/-- The parent of the path of a place is the path of the place above it. -/
theorem parent?_pathOf (hnames : ∀ name ∈ names, IsName name) :
    (pathOf names).parent?.getD (pathOf names) = pathOf names.dropLast := by
  rcases List.eq_nil_or_concat names with rfl | ⟨above, name, rfl⟩
  · rfl
  · rw [List.concat_eq_append] at *
    have hname : IsName name := hnames name (by simp)
    have habove : ∀ name ∈ above, IsName name := fun name h => hnames name (by simp [h])
    have hslash : ∀ c ∈ name.reverse, decide (c ≠ '/') := fun c hc =>
      decide_eq_true fun h => hname.slash_notMem (h ▸ List.mem_reverse.1 hc)
    have hback : Path.dropEmptyEnd ((descent (above ++ [name])).reverse.dropWhile (· ≠ '/')) =
        (descent above).reverse := by
      rw [reverse_descent_concat, List.dropWhile_append_of_pos hslash]
      exact dropEmptyEnd_reverse_descent habove
    have hne : (descent (above ++ [name])).reverse ≠ [] := by
      rw [reverse_descent_concat]
      simp
    rw [Path.parent?_eq, text_pathOf (by simp), dropEmptyEnd_reverse_descent hnames, if_neg hne,
      hback, List.dropLast_concat, Option.getD_some, isAbsolute_pathOf]
    by_cases hnil : above = []
    · subst hnil
      rfl
    · have hne' : (descent above).reverse ≠ [] := by
        rw [Ne, List.reverse_eq_nil_iff, ← text_pathOf hnil]
        exact List.cons_ne_nil _ _
      rw [if_neg hne', List.reverse_reverse, ← text_pathOf hnil]

theorem nul_notMem_join_name (hname : IsName name) (hp : '\x00' ∉ p.text) :
    '\x00' ∉ (p.join ⟨name⟩).text := by
  rw [Path.mem_text_join_iff (isAbsolute_name hname) (by decide)]
  exact not_or_intro hp hname.nul_notMem

theorem canonical_pathOf_join_name (hsound : tree.root.IsSound) (hname : IsName name)
    (h : Way tree.root .spelling linkLimit place [name] (.found names node)) :
    tree.canonical ((pathOf place).join ⟨name⟩) = .ok (pathOf names) := by
  obtain ⟨entries, hentries⟩ := any_isDir_iff.1 h.any_isDir
  have hstep := h.isStep hname.ofSegment?_eq
  have hshort : ¬ exceeds place 1 := not_exceeds_slash (by simpa using hstep.spelled)
  have hnul := nul_notMem_join_name hname (nul_notMem_pathOf (hsound.isName hentries))
  have hfollow : tree.follow .spelling ((pathOf place).join ⟨name⟩) =
      walk tree.root .spelling linkLimit place (name.splitOn '/') :=
    follow_pathOf_join hsound (Node.isDir_of_any h.any_isDir) hentries nofun
      (isAbsolute_name hname) (by decide) fun _ => hshort
  rw [List.splitOn_eq_singleton hname.slash_notMem, walk_of_way h] at hfollow
  exact canonical_eq_ok_iff.2 ⟨hnul, .inl (Path.isAbsolute_join (isAbsolute_pathOf place)), names,
    node, hfollow, rfl⟩

/-- The ways by which a name is found beside what a path leads to, and by which it may be found from
a path above. -/
theorem exists_ascent_of_canonical (hp : p.text ≠ []) (hname : IsName name)
    (hupper : Upper p u front rest) (h : tree.canonical (p.join (beside name)) = .ok r) :
    ∃ start names node base entries above entries', StartsAt tree p start ∧ pathOf names = r ∧
      Way tree.root .target linkLimit start front (.found base (.dir entries)) ∧
      Way tree.root .target linkLimit start (front ++ (rest ++ [['.', '.']]))
        (.found above (.dir entries')) ∧
      Way tree.root .spelling linkLimit above [name] (.found names node) ∧
      (base = above →
        Way tree.root .spelling linkLimit start (front ++ [name]) (.found names node)) := by
  obtain ⟨-, hseen, names, node, hfollow, hr⟩ := canonical_eq_ok_iff.1 h
  rw [Path.isAbsolute_join_eq rfl hp] at hseen
  obtain ⟨start, hstart⟩ := exists_startsAt hseen
  have hne : (beside name).text ≠ [] := List.cons_ne_nil _ _
  rw [hstart.follow_join_self hupper hp rfl hne, splitOn_beside hname] at hfollow
  obtain ⟨base, entries, above, entries', hways⟩ := exists_ascent hname (way_of_walk hfollow)
  exact ⟨start, names, node, base, entries, above, entries', hstart, hr, hways⟩

theorem text_ne_nil_of_canonical (h : tree.canonical p = .ok q) : p.text ≠ [] := by
  obtain ⟨start, names, node, hspells, -⟩ := exists_spells h
  exact hspells.ne_nil

/-- What is beside a path is seen from the parent of its canonical form. -/
theorem canonical_parent_join_canonical (hsound : tree.root.IsSound) (hname : IsName name)
    (hp : tree.canonical p = .ok q) (h : tree.canonical (p.join (beside name)) = .ok r) :
    tree.canonical ((q.parent?.getD q).join ⟨name⟩) = .ok r := by
  have hne := text_ne_nil_of_canonical hp
  obtain ⟨front, hupper, hsegments⟩ := Path.exists_upper_self hne
  obtain ⟨start, names, node, base, entries, above, entries', hstart, rfl, hbase, habove, hway,
    -⟩ := exists_ascent_of_canonical hne hname hupper h
  obtain ⟨-, -, place, node', hfollow, rfl⟩ := canonical_eq_ok_iff.1 hp
  rw [hstart .spelling p hne rfl] at hfollow
  have hplace : Way tree.root .target linkLimit start (p.text.splitOn '/') (.found place node') :=
    (way_of_walk hfollow).target nofun
  have hdir : (tree.root.get? base).any Node.isDir := any_isDir_iff.2 ⟨entries, hbase.isIn⟩
  have hbase' : place = base := by
    rcases hsegments with hsegments | hsegments <;> rw [hsegments] at hplace
    · exact (Place.found.inj (hplace.eq_of_ways hbase)).1
    · obtain ⟨left, -, hend⟩ := hbase.behind hplace
      exact hend.eq_of_stays (stays_singleton rfl) hdir
  obtain ⟨left, -, hup⟩ := hbase.behind habove
  obtain rfl : above = base.dropLast := hup.eq_of_up
  rw [hbase', parent?_pathOf (hsound.isName hbase.isIn)]
  exact canonical_pathOf_join_name hsound hname hway

/-- Where the parent of a path leads to the directory above, what is beside the path is seen from
its parent. -/
theorem canonical_parent_join_of_leadsUp (hp : p.text ≠ []) (hname : IsName name)
    (hup : LeadsUp tree p) (h : tree.canonical (p.join (beside name)) = .ok r) :
    tree.canonical ((p.parent?.getD p).join ⟨name⟩) = .ok r := by
  obtain ⟨front, rest, hupper⟩ := Path.exists_upper hp
  obtain ⟨start, names, node, base, entries, above, entries', hstart, rfl, hbase, habove, -,
    hway⟩ := exists_ascent_of_canonical hp hname hupper h
  obtain ⟨found, node', hparent, hdots⟩ := hup
  have hdir : (tree.root.get? base).any Node.isDir := any_isDir_iff.2 ⟨entries, hbase.isIn⟩
  have hbase' : found = base := by
    rw [hstart.follow_join hupper rfl (List.cons_ne_nil _ _)] at hparent
    obtain ⟨left, -, hstay⟩ := hbase.behind (way_of_walk hparent)
    exact hstay.eq_of_stays (stays_singleton rfl) hdir
  have habove' : found = above := by
    rw [hstart.follow_join_self hupper hp rfl (List.cons_ne_nil _ _)] at hdots
    exact (Place.found.inj ((way_of_walk hdots).eq_of_ways habove)).1
  obtain ⟨hnul, hseen, -⟩ := canonical_eq_ok_iff.1 h
  rw [Path.mem_text_join_iff rfl (by decide), not_or] at hnul
  rw [Path.isAbsolute_join_eq rfl hp] at hseen
  have hname' := isAbsolute_name hname
  refine canonical_eq_ok_iff.2 ⟨nul_notMem_join_name hname fun hmem => ?_, ?_, names, node, ?_, rfl⟩
  · exact (List.mem_cons.1 (hupper.text_subset hmem)).elim (by decide) hnul.1
  · rwa [hupper.isAbsolute_join ⟨name⟩ hname' hname.ne_nil]
  · rw [hstart.follow_join hupper hname' hname.ne_nil,
      List.splitOn_eq_singleton hname.slash_notMem]
    exact walk_of_way (hway (hbase'.symm.trans habove'))

theorem text_ne_nil_of_name? (h : p.name? = some n) : p.text ≠ [] := by
  intro hnil
  rw [Path.name?, Path.components_eq_nil_iff.2 hnil] at h
  cases h

/-- A path to a directory that ends in a name leads to the directory above by its parent, unless the
name is one of a link. -/
theorem leadsUp_of_name? (hsound : tree.root.IsSound) (hp : p.name? = some n)
    (hseen : p.isAbsolute ∨ tree.currentPath?.isSome) (hlink : ∀ target, node ≠ .link target)
    (hentry : tree.follow .entry ((p.parent?.getD p).join ⟨n⟩) = .ok (.found names node))
    (hb : b.isAbsolute = false) (hne : b.text ≠ []) {result : Place}
    (hbelow : tree.follow .target (p.join b) = .ok result) : LeadsUp tree p := by
  have hinner := Path.isInner_of_name? hp
  have hsegment : Path.Component.ofSegment? n = some (.name n) := hinner.ofSegment?_text
  have hslash : '/' ∉ n := hinner.slash_notMem
  have hn : n ≠ [] := by
    rintro rfl
    cases hsegment
  have hrelative : Path.isAbsolute ⟨n⟩ = false :=
    decide_eq_false fun h => hslash (List.mem_of_mem_head? h)
  have hp' := text_ne_nil_of_name? hp
  obtain ⟨front, mids, stays, hupper, hmids, hstays⟩ := Path.exists_upper_of_name? hp
  obtain ⟨start, hstart⟩ := exists_startsAt hseen
  rw [hstart.follow_join hupper hrelative hn, List.splitOn_eq_singleton hslash] at hentry
  obtain ⟨left, -, base, entries, hbase, hlast, -⟩ :=
    (way_of_walk hentry).splits (List.cons_ne_nil _ _)
  obtain rfl : names = base ++ [n] := hlast.eq_of_entry hsegment
  have hdir : (tree.root.get? base).any Node.isDir := any_isDir_iff.2 ⟨entries, hbase.isIn⟩
  have hnode : tree.root.get? (base ++ [n]) = some node := hlast.isIn
  have hname : IsName n := hsound.isName hnode n (by simp)
  have hself {b : Path} (hb : b.isAbsolute = false) (hne : b.text ≠ []) :
      ∃ left, tree.follow .target (p.join b) =
        walk tree.root .target left (base ++ [n]) (stays ++ b.text.splitOn '/') := by
    obtain ⟨left, -, hleft⟩ :=
      exists_walk_name hbase hdir hmids hname hnode hlink (stays ++ b.text.splitOn '/')
    refine ⟨left, ?_⟩
    rw [hstart.follow_join_self hupper hp' hb hne, ← hleft, List.append_assoc]
    rfl
  -- What is seen from the path is looked up in it, so that it leads to a directory.
  have hdir' : (tree.root.get? (base ++ [n])).any Node.isDir := by
    obtain ⟨left, hleft⟩ := hself hb hne
    obtain ⟨segment, rest, hrest⟩ := List.exists_cons_of_ne_nil
      (List.append_ne_nil_of_right_ne_nil stays (List.splitOn_ne_nil '/' b.text))
    rw [hleft, hrest] at hbelow
    exact (way_of_walk hbelow).any_isDir
  have hhere (left : Nat) :
      walk tree.root .target left base [] = .ok (.found base (.dir entries)) :=
    walk_of_way (.here hbase.isIn)
  refine ⟨base, .dir entries, ?_, ?_⟩
  · obtain ⟨left, -, hleft⟩ := exists_walk_append hbase [['.']]
    have hdot : walk tree.root .target left base ([['.']] ++ []) =
        walk tree.root .target left base [] := walk_stays_append (stays_singleton rfl) hdir
    rw [hstart.follow_join hupper rfl (List.cons_ne_nil _ _)]
    exact hleft.trans (hdot.trans (hhere left))
  · obtain ⟨left, hleft⟩ := hself (b := ⟨['.', '.']⟩) rfl (List.cons_ne_nil _ _)
    have hdots : walk tree.root .target left (base ++ [n]) [['.', '.']] =
        walk tree.root .target left (base ++ [n]).dropLast [] := walk_up_cons hdir'
    rw [List.dropLast_concat] at hdots
    rw [hleft, walk_stays_append hstays hdir']
    exact hdots.trans (hhere left)

end Beside

end Optable.FileTree
