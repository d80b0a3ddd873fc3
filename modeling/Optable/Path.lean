import Optable.Text.Order
/-!
# Paths

A path is kept as it is spelled; what it means is its list of components.  Repeated slashes and
inner dots make no component, a dot at the start and every pair of dots do.  Prefixes, equality of
meaning, the order of paths and the last name of a path all go by components, while joining and
taking the parent keep the spelling.
-/

namespace Optable

structure Path where
  text : Text
  deriving DecidableEq, Repr, Inhabited

namespace Path

/-- A component of a path: the root, the dot at its start, a pair of dots, or a name. -/
inductive Component where
  | root
  | here
  | up
  | name (text : Text)
  deriving DecidableEq, Repr

def Component.text : Component → Text
  | .root => ['/']
  | .here => ['.']
  | .up => ['.', '.']
  | .name n => n

/-- The component that stands between two slashes.  Nothing and a single dot are none. -/
def Component.ofSegment? : Text → Option Component
  | [] => none
  | ['.'] => none
  | ['.', '.'] => some .up
  | n => some (.name n)

def ofString (s : String) : Path := ⟨s.toList⟩

def isAbsolute (p : Path) : Bool := p.text.head? = some '/'

def components (p : Path) : List Component :=
  match p.text with
  | '/' :: rest => .root :: (rest.splitOn '/').filterMap Component.ofSegment?
  | text =>
    match text.splitOn '/' with
    | ['.'] :: rest => .here :: rest.filterMap Component.ofSegment?
    | segments => segments.filterMap Component.ofSegment?

/-- The second path seen from the first one.  An absolute path stands for itself; a slash goes
between the two unless the first is empty or has one at its end. -/
def join (base p : Path) : Path :=
  if p.isAbsolute then p
  else if base.text.isEmpty || base.text.getLast? = some '/' then ⟨base.text ++ p.text⟩
  else ⟨base.text ++ '/' :: p.text⟩

/-- A text read from its end, without the slashes and the dots after a slash that make no component
there. -/
def dropEmptyEnd : Text → Text
  | '/' :: back => dropEmptyEnd back
  | '.' :: '/' :: back => dropEmptyEnd back
  | back => back

/-- The path without its last component, spelled as before; the root and the empty path have no
parent. -/
def parent? (p : Path) : Option Path :=
  match dropEmptyEnd p.text.reverse with
  | [] => none
  | back =>
    match dropEmptyEnd (back.dropWhile (· ≠ '/')) with
    | [] => some (if p.isAbsolute then ⟨['/']⟩ else ⟨[]⟩)
    | up => some ⟨up.reverse⟩

theorem dropEmptyEnd_suffix (back : Text) : dropEmptyEnd back <:+ back := by
  fun_induction dropEmptyEnd back with
  | case1 _ ih => exact ih.trans (List.suffix_cons _ _)
  | case2 _ ih => exact ih.trans ((List.suffix_cons _ _).trans (List.suffix_cons _ _))
  | case3 => exact List.suffix_rfl

theorem head?_dropEmptyEnd_ne (back : Text) : (dropEmptyEnd back).head? ≠ some '/' := by
  fun_induction dropEmptyEnd back with
  | case1 _ ih => exact ih
  | case2 _ ih => exact ih
  | case3 back h _ =>
    intro hhead
    cases back with
    | nil => simp at hhead
    | cons c back =>
      simp only [List.head?_cons, Option.some.injEq] at hhead
      exact h back (by rw [hhead])

theorem length_parent?_lt {p q : Path} (h : p.parent? = some q) :
    q.text.length < p.text.length := by
  have hle := (dropEmptyEnd_suffix p.text.reverse).length_le
  have hhead := head?_dropEmptyEnd_ne p.text.reverse
  unfold parent? at h
  generalize hback : dropEmptyEnd p.text.reverse = back at hle hhead h
  cases back with
  | nil => simp at h
  | cons c back =>
    have hc : c ≠ '/' := by simpa using hhead
    have hdrop := (List.dropWhile_suffix (l := back) (· ≠ '/')).length_le
    have hup := (dropEmptyEnd_suffix (back.dropWhile (· ≠ '/'))).length_le
    simp only [List.length_reverse, List.length_cons] at hle
    simp only [List.dropWhile_cons, ne_eq, hc, not_false_eq_true, decide_true, if_true] at h
    split at h <;> simp only [Option.some.injEq] at h <;> subst h
    · split
      · next habs =>
        obtain ⟨t⟩ := p
        rcases t with _ | ⟨d, _ | ⟨e, t⟩⟩
        · simp [isAbsolute] at habs
        · have hd : d = '/' := by simpa [isAbsolute] using habs
          simp [hd, dropEmptyEnd] at hback
        · simp
      · simp only [List.length_nil]
        omega
    · simp only [List.length_reverse]
      simp only [ne_eq, decide_not] at *
      omega

/-- The name at the end of a path, if it ends in one. -/
def name? (p : Path) : Option Text :=
  match p.components.getLast? with
  | some (.name n) => some n
  | _ => none

/-- A name up to its last dot.  A dot at the start of the name does not count. -/
def stemOf (name : Text) : Text :=
  match Text.cut? '.' name.reverse with
  | none => name
  | some (_, []) => name
  | some (_, before) => before.reverse

def stem? (p : Path) : Option Text := p.name?.map stemOf

def dropPrefix? : List Component → List Component → Option (List Component)
  | [], l => some l
  | _ :: _, [] => none
  | a :: as, b :: bs => if a = b then dropPrefix? as bs else none

/-- Whether the path lies at or under another one, component by component. -/
def isWithin (p root : Path) : Bool := (dropPrefix? root.components p.components).isSome

def sameAs (p q : Path) : Bool := p.components = q.components

def spell (components : List Component) : Text :=
  List.intercalate ['/'] (components.map Component.text)

/-- How a file is named seen from a root: by what follows the root's components, or by all of its
own components where it does not lie under the root. -/
def textFrom (root p : Path) : Text :=
  spell ((dropPrefix? root.components p.components).getD p.components)

/-- The order of components: the root, the dot at the start, pairs of dots, and names by their
characters. -/
def Component.precedes : Component → Component → Bool
  | .name m, .name n => Text.precedes m n
  | .root, c => c ≠ .root
  | .here, .up | .here, .name _ | .up, .name _ => true
  | _, _ => false

def precedes (p q : Path) : Bool := List.lex p.components q.components Component.precedes

theorem dropPrefix?_eq_some_iff {a l rest : List Component} :
    dropPrefix? a l = some rest ↔ l = a ++ rest := by
  induction a generalizing l with
  | nil => simp [dropPrefix?, eq_comm]
  | cons x a ih =>
    cases l with
    | nil => simp [dropPrefix?]
    | cons y l =>
      by_cases h : x = y
      · simp [dropPrefix?, h, ih]
      · simp [dropPrefix?, h, Ne.symm h]

end Path
end Optable
