import Mathlib.Data.List.Basic
import Optable.Path
import Optable.Proofs.Blank
/-!
# The components of a path

A path starts with the root, with a dot, or with nothing of the kind, and all its other components
are pairs of dots and names, which can be read off the segments between its slashes wherever they
stand.  So components joined by slashes are the components of the path that they spell, and a file
that is named from a root can be found again from there.
-/

namespace Optable.Path

/-- The components of a text but for the one that only its start can make. -/
def inner (t : Text) : List Component := (t.splitOn '/').filterMap Component.ofSegment?

/-- The component that only the start of a text can make: the root, or a dot. -/
def start (t : Text) : List Component :=
  if t.head? = some '/' then [.root]
  else if (t.splitOn '/').head? = some ['.'] then [.here]
  else []

/-- A component that can stand between two slashes. -/
structure Component.IsInner (c : Component) : Prop where
  ofSegment?_text : Component.ofSegment? c.text = some c
  slash_notMem : '/' ∉ c.text

section Segments

variable {s t u : Text} {c : Component} {cs : List Component}

theorem splitOn_slash_cons (t : Text) : ('/' :: t).splitOn '/' = [] :: t.splitOn '/' :=
  List.splitOn_append_cons_self [] t

theorem inner_append_cons (s t : Text) : inner (s ++ '/' :: t) = inner s ++ inner t := by
  rw [inner, List.splitOn_append_cons_self, List.filterMap_append, inner, inner]

theorem inner_nil : inner [] = [] := rfl

theorem inner_slash_cons (t : Text) : inner ('/' :: t) = inner t := inner_append_cons [] t

theorem text_of_ofSegment? (h : Component.ofSegment? s = some c) : c.text = s := by
  unfold Component.ofSegment? at h
  split at h <;> cases h <;> rfl

theorem slash_notMem_of_mem_splitOn (h : s ∈ t.splitOn '/') : '/' ∉ s := by
  intro hslash
  rw [List.splitOn_eq_splitOnP] at h
  have hno := (Text.mem_splitOnP h).1 '/' hslash
  exact absurd hno (by decide)

theorem isInner_of_mem_inner (h : c ∈ inner t) : c.IsInner := by
  obtain ⟨segment, hmem, hsegment⟩ := List.mem_filterMap.1 h
  have htext := text_of_ofSegment? hsegment
  exact ⟨by rw [htext, hsegment], by rw [htext]; exact slash_notMem_of_mem_splitOn hmem⟩

theorem inner_text (h : c.IsInner) : inner c.text = [c] := by
  rw [inner, List.splitOn_eq_singleton h.slash_notMem, List.filterMap_cons, h.ofSegment?_text,
    List.filterMap_nil]

theorem start_append_cons (hs : s ≠ []) (t : Text) : start (s ++ '/' :: t) = start s := by
  obtain ⟨c, s, rfl⟩ := List.exists_cons_of_ne_nil hs
  obtain ⟨first, rest, hfirst⟩ := List.exists_cons_of_ne_nil (List.splitOn_ne_nil '/' (c :: s))
  rw [start, start, List.splitOn_append_cons_self, hfirst]
  rfl

theorem start_text_append (h : c.IsInner) (ht : t = [] ∨ t.head? = some '/') :
    start (c.text ++ t) = [] := by
  have hstart : start c.text = [] := by
    have hdot : c.text ≠ ['.'] := fun hdot => by
      have hsegment := h.ofSegment?_text
      rw [hdot] at hsegment
      cases hsegment
    have hhead : c.text.head? ≠ some '/' := fun hhead =>
      h.slash_notMem (List.mem_of_mem_head? hhead)
    rw [start, if_neg hhead, List.splitOn_eq_singleton h.slash_notMem, if_neg (by simpa using hdot)]
  rcases ht with rfl | ht
  · rw [List.append_nil, hstart]
  · obtain ⟨t, rfl⟩ := List.head?_eq_some_iff.1 ht
    have hne : c.text ≠ [] := fun hnil => by
      have hsegment := h.ofSegment?_text
      rw [hnil] at hsegment
      cases hsegment
    rw [start_append_cons hne, hstart]

end Segments

section Components

variable {s t u : Text} {base p root : Path} {c : Component} {cs rest : List Component}

theorem components_eq (p : Path) : p.components = start p.text ++ inner p.text := by
  obtain ⟨t⟩ := p
  show components ⟨t⟩ = start t ++ inner t
  unfold components start
  dsimp only
  split
  · rw [List.head?_cons, if_pos rfl, inner_slash_cons]
    rfl
  · next hslash =>
    have hhead : t.head? ≠ some '/' := fun hhead => by
      obtain ⟨t, rfl⟩ := List.head?_eq_some_iff.1 hhead
      exact hslash t rfl
    rw [if_neg hhead]
    split
    · next segments hsegments =>
      rw [inner, hsegments]
      rfl
    · next hdot =>
      have hfirst : (t.splitOn '/').head? ≠ some ['.'] := fun hfirst => by
        obtain ⟨segments, hsegments⟩ := List.head?_eq_some_iff.1 hfirst
        exact hdot segments hsegments
      rw [if_neg hfirst]
      rfl

theorem components_slash_cons (t : Text) : components ⟨'/' :: t⟩ = .root :: inner t := rfl

theorem components_append_cons (hs : s ≠ []) (t : Text) :
    components ⟨s ++ '/' :: t⟩ = components ⟨s⟩ ++ inner t := by
  rw [components_eq, components_eq, start_append_cons hs, inner_append_cons, List.append_assoc]

/-- What stands behind a slash shows by its inner components only. -/
theorem components_append_congr (s : Text) (h : inner t = inner u) :
    components ⟨s ++ '/' :: t⟩ = components ⟨s ++ '/' :: u⟩ := by
  by_cases hs : s = []
  · rw [hs, List.nil_append, List.nil_append, components_slash_cons, components_slash_cons, h]
  · rw [components_append_cons hs, components_append_cons hs, h]

/-- A text that does not start with a slash has something in front of the first one. -/
theorem exists_splitOn_eq_cons (hne : t ≠ []) (hslash : t.head? ≠ some '/') :
    ∃ first rest, first ≠ [] ∧ t.splitOn '/' = first :: rest := by
  obtain ⟨first, rest, hsegments⟩ := List.exists_cons_of_ne_nil (List.splitOn_ne_nil '/' t)
  refine ⟨first, rest, ?_, hsegments⟩
  rintro rfl
  have ht : t = List.intercalate ['/'] ([] :: rest) := by
    rw [← hsegments, List.intercalate_splitOn]
  cases rest with
  | nil => exact hne (by simpa using ht)
  | cons next rest =>
    rw [List.intercalate_cons_cons] at ht
    exact hslash (by rw [ht]; rfl)

theorem components_eq_nil_iff : p.components = [] ↔ p.text = [] := by
  constructor
  · intro h
    rw [components_eq, List.append_eq_nil_iff] at h
    obtain ⟨hstart, hinner⟩ := h
    unfold start at hstart
    split at hstart
    · cases hstart
    · next hslash =>
      split at hstart
      · cases hstart
      · next hdot =>
        by_contra hne
        -- The first segment is a component, whatever it is.
        obtain ⟨first, rest, hfirst, hsegments⟩ := exists_splitOn_eq_cons hne hslash
        rw [hsegments, List.head?_cons, Option.some.injEq] at hdot
        have hsome : ∃ c, Component.ofSegment? first = some c := by
          unfold Component.ofSegment?
          split <;> simp_all
        obtain ⟨c, hc⟩ := hsome
        rw [inner, hsegments, List.filterMap_cons, hc] at hinner
        cases hinner
  · intro h
    rw [components_eq, h]
    rfl

/-- A path seen from another one has the components of the two, but for a dot at its start. -/
theorem components_join (hp : p.isAbsolute = false) (hbase : base.text ≠ []) :
    (base.join p).components = base.components ++ inner p.text := by
  obtain ⟨s⟩ := base
  have hempty : s.isEmpty = false := by simpa using hbase
  rw [join, hp, hempty, Bool.false_or]
  by_cases hlast : s.getLast? = some '/'
  · obtain ⟨s, rfl⟩ := List.getLast?_eq_some_iff.1 hlast
    simp only [hlast, decide_true, Bool.false_eq_true, if_false, if_true, List.append_assoc,
      List.singleton_append]
    by_cases hs : s = []
    · subst hs
      rfl
    · rw [components_append_cons hs, components_append_cons hs, inner_nil, List.append_nil]
  · simp only [hlast, decide_false, Bool.false_eq_true, if_false]
    exact components_append_cons hbase _

theorem join_of_isAbsolute (h : p.isAbsolute) : base.join p = p := if_pos h

theorem isAbsolute_join (h : base.isAbsolute) : (base.join p).isAbsolute := by
  obtain ⟨t, ht⟩ : ∃ t, base.text = '/' :: t := List.head?_eq_some_iff.1 (of_decide_eq_true h)
  unfold join
  split
  · assumption
  · split <;> simp [isAbsolute, ht]

/-- A relative path stands behind what it is seen from, and maybe a slash. -/
theorem exists_text_join (base : Path) (hp : p.isAbsolute = false) :
    ∃ slash : Text, slash ⊆ ['/'] ∧ (base.join p).text = base.text ++ slash ++ p.text := by
  rw [join, hp, if_neg Bool.false_ne_true]
  split
  · exact ⟨[], List.nil_subset _, by rw [List.append_nil]⟩
  · exact ⟨['/'], List.Subset.refl _, by rw [List.append_assoc]; rfl⟩

theorem mem_text_join_iff {c : Char} (hp : p.isAbsolute = false) (hc : c ≠ '/') :
    c ∈ (base.join p).text ↔ c ∈ base.text ∨ c ∈ p.text := by
  obtain ⟨slash, hslash, htext⟩ := exists_text_join base hp
  have hnot : c ∉ slash := fun hmem => hc (List.mem_singleton.1 (hslash hmem))
  simp [htext, hnot]

theorem isAbsolute_join_eq (hp : p.isAbsolute = false) (hbase : base.text ≠ []) :
    (base.join p).isAbsolute = base.isAbsolute := by
  obtain ⟨slash, -, htext⟩ := exists_text_join base hp
  rw [isAbsolute, isAbsolute, htext, List.append_assoc, List.head?_append_of_ne_nil _ hbase]

theorem components_join_nil (h : base.text ≠ []) :
    (base.join ⟨[]⟩).components = base.components := by
  rw [components_join rfl h, inner_nil, List.append_nil]

theorem spell_cons (c : Component) (h : cs ≠ []) : spell (c :: cs) = c.text ++ '/' :: spell cs := by
  obtain ⟨d, cs, rfl⟩ := List.exists_cons_of_ne_nil h
  simp [spell, List.intercalate_cons_cons]

theorem spell_singleton (c : Component) : spell [c] = c.text := by simp [spell]

theorem inner_spell (h : ∀ c ∈ cs, c.IsInner) : inner (spell cs) = cs := by
  induction cs with
  | nil => rfl
  | cons c cs ih =>
    obtain ⟨hc, hcs⟩ := List.forall_mem_cons.1 h
    by_cases hnil : cs = []
    · rw [hnil, spell_singleton, inner_text hc]
    · rw [spell_cons c hnil, inner_append_cons, inner_text hc, ih hcs, List.singleton_append]

theorem start_spell (h : ∀ c ∈ cs, c.IsInner) : start (spell cs) = [] := by
  cases cs with
  | nil => rfl
  | cons c cs =>
    have hc : c.IsInner := h c List.mem_cons_self
    by_cases hnil : cs = []
    · rw [hnil, spell_singleton, ← List.append_nil c.text]
      exact start_text_append hc (.inl rfl)
    · rw [spell_cons c hnil]
      exact start_text_append hc (.inr rfl)

theorem isAbsolute_iff : p.isAbsolute ↔ start p.text = [.root] := by
  unfold isAbsolute start
  split
  · next h => simp [h]
  · next h => split <;> simp [h]

theorem isAbsolute_spell (h : ∀ c ∈ cs, c.IsInner) : isAbsolute ⟨spell cs⟩ = false := by
  rw [← Bool.not_eq_true, isAbsolute_iff, start_spell h]
  exact (List.cons_ne_nil _ _).symm

theorem start_cases (t : Text) : start t = [] ∨ start t = [.root] ∨ start t = [.here] := by
  unfold start
  split
  · exact .inr (.inl rfl)
  · split
    · exact .inr (.inr rfl)
    · exact .inl rfl

/-- All components behind the first one can stand between two slashes. -/
theorem isInner_of_mem_tail (h : c ∈ p.components.tail) : c.IsInner := by
  rw [components_eq] at h
  rcases start_cases p.text with hstart | hstart | hstart <;> rw [hstart] at h
  · exact isInner_of_mem_inner (List.mem_of_mem_tail h)
  · exact isInner_of_mem_inner h
  · exact isInner_of_mem_inner h

/-- The components of a path spell a path with the same components. -/
theorem components_spell (p : Path) : components ⟨spell p.components⟩ = p.components := by
  have hinner : ∀ c ∈ inner p.text, c.IsInner := fun c => isInner_of_mem_inner
  have hspell := inner_spell hinner
  rw [components_eq p]
  rcases start_cases p.text with hstart | hstart | hstart <;> rw [hstart]
  · rw [List.nil_append, components_eq, start_spell hinner, hspell, List.nil_append]
  · rw [List.singleton_append]
    by_cases hnil : inner p.text = []
    · rw [hnil]
      rfl
    · rw [spell_cons _ hnil]
      show components ⟨'/' :: '/' :: spell (inner p.text)⟩ = _
      rw [components_slash_cons, inner_slash_cons, hspell]
  · rw [List.singleton_append]
    by_cases hnil : inner p.text = []
    · rw [hnil]
      rfl
    · have hne : Component.here.text ≠ [] := List.cons_ne_nil _ _
      rw [spell_cons _ hnil, components_append_cons hne, hspell]
      rfl

/-- What is left of a path behind the components of a root leads from the root to the path. -/
theorem components_join_spell (h : p.components = root.components ++ rest) :
    (root.join ⟨spell rest⟩).components = p.components := by
  by_cases hroot : root.components = []
  · -- Nothing is in front of the rest, so that it may start with the root or a dot.
    have htext : root.text = [] := components_eq_nil_iff.1 hroot
    have hjoin : root.join ⟨spell rest⟩ = ⟨spell rest⟩ := by simp [join, htext]
    rw [hroot, List.nil_append] at h
    rw [hjoin, ← h, components_spell]
  · have hrest : ∀ c ∈ rest, c.IsInner := by
      intro c hc
      obtain ⟨d, cs, hcs⟩ := List.exists_cons_of_ne_nil hroot
      refine isInner_of_mem_tail (p := p) ?_
      rw [h, hcs, List.cons_append, List.tail_cons]
      exact List.mem_append_right _ hc
    have htext : root.text ≠ [] := fun htext => hroot (components_eq_nil_iff.2 htext)
    rw [components_join (isAbsolute_spell hrest) htext, inner_spell hrest, h]

theorem sameAs_iff : p.sameAs root ↔ p.components = root.components := decide_eq_true_iff

theorem isWithin_iff : p.isWithin root ↔ root.components <+: p.components := by
  unfold isWithin
  constructor
  · intro h
    obtain ⟨rest, hrest⟩ := Option.isSome_iff_exists.1 h
    exact ⟨rest, (dropPrefix?_eq_some_iff.1 hrest).symm⟩
  · rintro ⟨rest, hrest⟩
    rw [dropPrefix?_eq_some_iff.2 hrest.symm]
    rfl

theorem textFrom_of_append (h : p.components = root.components ++ rest) :
    textFrom root p = spell rest := by
  rw [textFrom, dropPrefix?_eq_some_iff.2 h, Option.getD_some]

theorem textFrom_of_not_isWithin (h : ¬ root.components <+: p.components) :
    textFrom root p = spell p.components := by
  have hnone : dropPrefix? root.components p.components = none := by
    cases hdrop : dropPrefix? root.components p.components with
    | none => rfl
    | some rest => exact absurd ⟨rest, (dropPrefix?_eq_some_iff.1 hdrop).symm⟩ h
  rw [textFrom, hnone, Option.getD_none]

end Components

/-- Two spellings that differ in what makes no component: slashes that are repeated or stand at the
end, and dots behind a slash. -/
inductive Respells : Text → Text → Prop
  | refl (t : Text) : Respells t t
  | symm {s t : Text} (h : Respells s t) : Respells t s
  | trans {s t u : Text} (hst : Respells s t) (htu : Respells t u) : Respells s u
  | slash (s t : Text) : Respells (s ++ '/' :: t) (s ++ '/' :: '/' :: t)
  | dot (s t : Text) : Respells (s ++ '/' :: t) (s ++ '/' :: '.' :: '/' :: t)
  | endSlash {s : Text} (hs : s ≠ []) : Respells s (s ++ ['/'])
  | endDot (s : Text) : Respells (s ++ ['/']) (s ++ ['/', '.'])

theorem Respells.components_eq {s t : Text} (h : Respells s t) :
    components ⟨s⟩ = components ⟨t⟩ := by
  induction h with
  | refl => rfl
  | symm _ ih => exact ih.symm
  | trans _ _ ihst ihtu => exact ihst.trans ihtu
  | slash s t => exact components_append_congr s (inner_slash_cons t).symm
  | dot s t => exact components_append_congr s (inner_append_cons ['.'] t).symm
  | endSlash hs => rw [components_append_cons hs, inner_nil, List.append_nil]
  | endDot s => exact components_append_congr s rfl

/-- How a path is named from a root.  Where the components of the root are the first ones of the
path, it is named by the others, and the name leads from the root to the path; otherwise it is named
by all its components, and the name is read back as these.  Whole components are compared, so that
a name that only begins like the root's is another one.  The components of the two paths decide all
this, and not how they are spelled. -/
theorem textFrom_spec (root p : Path) :
    (∀ rest, p.components = root.components ++ rest →
      textFrom root p = spell rest ∧ (root.join ⟨textFrom root p⟩).components = p.components) ∧
    (¬ root.components <+: p.components →
      textFrom root p = spell p.components ∧ components ⟨textFrom root p⟩ = p.components) ∧
    (∀ dir n m rest, root.components = dir ++ [.name n] → p.components = dir ++ .name m :: rest →
      n ≠ m → textFrom root p = spell p.components) ∧
    (∀ root' p', root'.components = root.components → p'.components = p.components →
      textFrom root' p' = textFrom root p) ∧
    (∀ root' p', Respells root.text root'.text → Respells p.text p'.text →
      textFrom root' p' = textFrom root p) := by
  have hcomponents {root' p' : Path} (hroot : root'.components = root.components)
      (hp : p'.components = p.components) : textFrom root' p' = textFrom root p := by
    rw [textFrom, textFrom, hroot, hp]
  refine ⟨fun rest h => ?_, fun h => ?_, fun dir n m rest hroot hp hne => ?_,
    fun root' p' => hcomponents, fun root' p' hroot hp => ?_⟩
  · have htext := textFrom_of_append h
    exact ⟨htext, by rw [htext, components_join_spell h]⟩
  · have htext := textFrom_of_not_isWithin h
    exact ⟨htext, by rw [htext, components_spell]⟩
  · refine textFrom_of_not_isWithin fun hprefix => ?_
    rw [hroot, hp, List.prefix_append_right_inj, List.cons_prefix_cons] at hprefix
    exact hne (Component.name.inj hprefix.1)
  · exact hcomponents hroot.components_eq.symm hp.components_eq.symm

/-- A root with a slash and a dot too many, a file under it, and one under a directory with a longer
name. -/
theorem textFrom_repo :
    let root := ofString "/repo"
    let spelled := ofString "/repo/./"
    let file := ofString "/repo/src//io.c"
    let other := ofString "/repo2/x"
    file.components = root.components ++ [.name "src".toList, .name "io.c".toList] ∧
      textFrom spelled file = "src/io.c".toList ∧
      (root.join ⟨textFrom root file⟩).components = file.components ∧
      textFrom root other = "//repo2/x".toList ∧
      components ⟨textFrom root other⟩ = other.components := by
  intro root spelled file other
  have hfile : file.components = root.components ++ [.name "src".toList, .name "io.c".toList] := by
    decide
  have hspelled : Respells root.text spelled.text :=
    (Respells.endSlash (by decide)).trans
      ((Respells.endDot "/repo".toList).trans (.endSlash (by decide)))
  have hother : ¬ root.components <+: other.components := by decide
  obtain ⟨hunder, -, -, -, hrespell⟩ := textFrom_spec root file
  obtain ⟨htext, hback⟩ := hunder _ hfile
  obtain ⟨-, houtside, hsibling, -⟩ := textFrom_spec root other
  refine ⟨hfile, ?_, hback, ?_, (houtside hother).2⟩
  · rw [hrespell spelled file hspelled (.refl _), htext]
    decide
  · rw [hsibling [.root] "repo".toList "repo2".toList [.name ['x']] (by decide) (by decide)
      (by decide)]
    decide

end Optable.Path
