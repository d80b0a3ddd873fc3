import Optable.Text.Order
/-!
# Sets of symbols

A set of symbols is kept as the list of its members in ascending order of code points, each once,
which is the order in which they are written out.
-/

namespace Optable

structure SymbolSet where
  toList : List Text
  ascending : toList.Pairwise fun s t => Text.precedes s t

namespace SymbolSet

/-- Puts a symbol into its place in an ascending list. -/
def insertInto (s : Text) : List Text → List Text
  | [] => [s]
  | t :: rest =>
    if Text.precedes s t then s :: t :: rest
    else if s = t then t :: rest
    else t :: insertInto s rest

theorem mem_insertInto {s u : Text} {l : List Text} : u ∈ insertInto s l ↔ u = s ∨ u ∈ l := by
  fun_induction insertInto s l with
  | case1 => simp
  | case2 => simp
  | case3 => simp_all
  | case4 _ _ _ _ ih => simp only [List.mem_cons, ih]; exact or_left_comm

theorem pairwise_insertInto {s : Text} {l : List Text}
    (h : l.Pairwise fun s t => Text.precedes s t) :
    (insertInto s l).Pairwise fun s t => Text.precedes s t := by
  fun_induction insertInto s l with
  | case1 => simp
  | case2 t rest hst =>
    refine List.pairwise_cons.2 ⟨fun u hu => ?_, h⟩
    rcases List.mem_cons.1 hu with rfl | hu
    · exact hst
    · exact Text.precedes_trans hst ((List.pairwise_cons.1 h).1 u hu)
  | case3 => exact h
  | case4 t rest hst hne ih =>
    have ⟨hlt, hrest⟩ := List.pairwise_cons.1 h
    refine List.pairwise_cons.2 ⟨fun u hu => ?_, ih hrest⟩
    rcases mem_insertInto.1 hu with rfl | hu
    · exact Text.precedes_of_not_precedes hst hne
    · exact hlt u hu

def empty : SymbolSet := ⟨[], .nil⟩

def insert (set : SymbolSet) (s : Text) : SymbolSet :=
  ⟨insertInto s set.toList, pairwise_insertInto set.ascending⟩

def ofList (symbols : List Text) : SymbolSet := symbols.foldl insert empty

def filter (p : Text → Bool) (set : SymbolSet) : SymbolSet :=
  ⟨set.toList.filter p, set.ascending.filter p⟩

def contains (set : SymbolSet) (s : Text) : Bool := set.toList.contains s

def diff (a b : SymbolSet) : SymbolSet := a.filter (!b.contains ·)

def inter (a b : SymbolSet) : SymbolSet := a.filter b.contains

end SymbolSet
end Optable
