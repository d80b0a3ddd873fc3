import Mathlib.Data.List.Basic
import Optable.Proofs.Declaration
/-!
# Names with the same symbol

A symbol is made from what stands behind the last marker of a display name, so nothing in front of
a marker shows in it.  Two internal names have the same symbol if they are the same, or if one is
that of an auxiliary primitive and the other one spells the suffix of auxiliary primitives out.
-/

namespace Optable.Symbol

/-- The backslash and the zero that end a glyph. -/
def marker : Text := ['\\', '0']

/-- What stands behind the last marker of a display name is its internal name, and so is the whole
of a name without a marker. -/
inductive IsInternalName : Text → Text → Prop
  | whole {name : Text} (hmarker : ¬ marker <:+: name) : IsInternalName name name
  | behind {glyph name : Text} (hmarker : ¬ marker <:+: name) :
    IsInternalName (glyph ++ marker ++ name) name

/-- The first internal name is that of an auxiliary primitive, and the second one spells its suffix
out without being one itself. -/
structure SpellsOut (auxiliary plain : Text) : Prop where
  exists_base : ∃ base, auxiliary = '#' :: base ∧ plain = base ++ "aux".toList
  plain_head : plain.head? ≠ some '#'

section Markers

variable {name glyph tail t : Text}

theorem afterMarker?_marker_append (glyph name : Text) :
    afterMarker? (glyph ++ marker ++ name) = some (internalName name) := by
  rw [List.append_assoc]
  induction glyph with
  | nil =>
    have hmark : marker ++ name = '\\' :: '0' :: name := rfl
    rw [internalName, List.nil_append, hmark, afterMarker?, afterMarker?]
    cases afterMarker? name <;> simp
  | cons c glyph ih => rw [List.cons_append, afterMarker?, ih]

theorem afterMarker?_eq_none_iff : afterMarker? t = none ↔ ¬ marker <:+: t := by
  constructor
  · rintro hnone ⟨glyph, name, rfl⟩
    rw [afterMarker?_marker_append] at hnone
    cases hnone
  · intro hmarker
    induction t with
    | nil => rfl
    | cons c t ih =>
      have hrest : afterMarker? t = none :=
        ih fun h => hmarker (h.trans (List.suffix_cons c t).isInfix)
      rw [afterMarker?, hrest]
      refine if_neg ?_
      rintro ⟨rfl, hzero⟩
      obtain ⟨name, rfl⟩ := List.head?_eq_some_iff.1 hzero
      exact hmarker ⟨[], name, rfl⟩

/-- A tail behind a marker is the last one, for no marker is left in it. -/
theorem exists_glyph_of_afterMarker? (h : afterMarker? t = some tail) :
    ¬ marker <:+: tail ∧ ∃ glyph, t = glyph ++ marker ++ tail := by
  induction t with
  | nil => cases h
  | cons c t ih =>
    rw [afterMarker?] at h
    split at h
    · next found hfound =>
      obtain rfl := Option.some.inj h
      obtain ⟨hmarker, glyph, hglyph⟩ := ih hfound
      exact ⟨hmarker, c :: glyph, congrArg (c :: ·) hglyph⟩
    · next hnone =>
      split at h
      · next hmark =>
        obtain ⟨rfl, hzero⟩ := hmark
        obtain ⟨rest, rfl⟩ := List.head?_eq_some_iff.1 hzero
        obtain rfl := Option.some.inj h
        have hmarker : ¬ marker <:+: '0' :: rest := afterMarker?_eq_none_iff.1 hnone
        exact ⟨fun h => hmarker (h.trans (List.suffix_cons _ _).isInfix), [], rfl⟩
      · cases h

theorem internalName_eq_iff : internalName name = t ↔ IsInternalName name t := by
  constructor
  · rintro rfl
    cases hafter : afterMarker? name with
    | none =>
      rw [internalName, hafter]
      exact .whole (afterMarker?_eq_none_iff.1 hafter)
    | some tail =>
      rw [internalName, hafter]
      obtain ⟨hmarker, glyph, rfl⟩ := exists_glyph_of_afterMarker? hafter
      exact .behind hmarker
  · intro h
    have hwhole {name : Text} (hmarker : ¬ marker <:+: name) : internalName name = name := by
      rw [internalName, afterMarker?_eq_none_iff.2 hmarker]
      rfl
    cases h with
    | whole hmarker => exact hwhole hmarker
    | behind hmarker =>
      rw [internalName, afterMarker?_marker_append, hwhole hmarker]
      rfl

/-- Whatever a glyph is, it ends with the marker behind it. -/
theorem internalName_marker_append (glyph name : Text) :
    internalName (glyph ++ marker ++ name) = internalName name := by
  rw [internalName, afterMarker?_marker_append]
  rfl

end Markers

section Suffixes

variable {m n base : Text}

theorem ofInternalName_of_head?_ne (h : n.head? ≠ some '#') : ofInternalName n = n ++ suffix := by
  rw [ofInternalName]
  rintro base rfl
  exact h rfl

theorem auxiliarySuffix_eq : auxiliarySuffix = "aux".toList ++ suffix := by decide

/-- The suffix of an auxiliary primitive can meet the other one only where a name spells it out. -/
theorem ofInternalName_sign_eq_iff (h : n.head? ≠ some '#') :
    ofInternalName ('#' :: base) = ofInternalName n ↔ n = base ++ "aux".toList := by
  rw [ofInternalName_of_head?_ne h, ofInternalName, auxiliarySuffix_eq, ← List.append_assoc,
    List.append_left_inj, eq_comm]

theorem ofInternalName_eq_iff :
    ofInternalName m = ofInternalName n ↔ m = n ∨ SpellsOut m n ∨ SpellsOut n m := by
  have hspells {m n : Text} (h : SpellsOut m n) : ofInternalName m = ofInternalName n := by
    obtain ⟨⟨base, rfl, hplain⟩, hhead⟩ := h
    exact (ofInternalName_sign_eq_iff hhead).2 hplain
  constructor
  · intro h
    by_cases hm : m.head? = some '#' <;> by_cases hn : n.head? = some '#'
    · -- Both are auxiliary.
      obtain ⟨base, rfl⟩ := List.head?_eq_some_iff.1 hm
      obtain ⟨other, rfl⟩ := List.head?_eq_some_iff.1 hn
      rw [ofInternalName, ofInternalName, List.append_left_inj] at h
      exact .inl (congrArg ('#' :: ·) h)
    · obtain ⟨base, rfl⟩ := List.head?_eq_some_iff.1 hm
      exact .inr (.inl ⟨⟨base, rfl, (ofInternalName_sign_eq_iff hn).1 h⟩, hn⟩)
    · obtain ⟨base, rfl⟩ := List.head?_eq_some_iff.1 hn
      exact .inr (.inr ⟨⟨base, rfl, (ofInternalName_sign_eq_iff hm).1 h.symm⟩, hm⟩)
    · rw [ofInternalName_of_head?_ne hm, ofInternalName_of_head?_ne hn, List.append_left_inj] at h
      exact .inl h
  · rintro (rfl | hmn | hnm)
    · rfl
    · exact hspells hmn
    · exact (hspells hnm).symm

end Suffixes

/-- When two display names have the same symbol.  It depends on their internal names alone, so that
a glyph with its marker makes no difference, whatever it holds; two internal names have the same
symbol only if they are the same or one spells the other out.  An internal name that is an
identifier, with or without a number sign in front, has an identifier as its symbol, with an
underscore at the end. -/
theorem ofName_eq_iff (a b : Text) :
    (∀ n, IsInternalName a n ↔ internalName a = n) ∧
    (ofName a = ofName b ↔ internalName a = internalName b ∨
      SpellsOut (internalName a) (internalName b) ∨
      SpellsOut (internalName b) (internalName a)) ∧
    (∀ glyph, ofName (glyph ++ marker ++ a) = ofName a) ∧
    (Token.isIdent (internalName a) ∨
        (∃ base, internalName a = '#' :: base ∧ Token.isIdent base) →
      Token.isIdent (ofName a) ∧ (ofName a).getLast? = some '_') := by
  refine ⟨fun n => internalName_eq_iff.symm, ofInternalName_eq_iff, fun glyph => ?_, fun h => ?_⟩
  · rw [ofName, internalName_marker_append, ofName]
  · refine ⟨?_, Declaration.getLast?_ofName a⟩
    obtain hident | ⟨base, hbase, hident⟩ := h
    · have hhead : (internalName a).head? ≠ some '#' := by
        intro hsign
        have hparts := List.all_eq_true.1 (Token.all_isIdentPart_of_isIdent hident)
        exact absurd (hparts _ (List.mem_of_mem_head? hsign)) (by decide)
      rw [ofName, ofInternalName_of_head?_ne hhead]
      exact Token.isIdent_append hident (by decide)
    · rw [ofName, hbase, ofInternalName]
      exact Token.isIdent_append hident (by decide)

/-- A glyph that starts with a number sign and holds a marker, in front of an auxiliary name. -/
theorem ofName_sign_glyph :
    let name := "#\\0a\\0#genrec".toList
    Token.isIdent "genrec".toList ∧ ofName name = ofName "genrecaux".toList ∧
      Token.isIdent (ofName name) := by
  intro name
  obtain ⟨-, hsame, -, hident⟩ := ofName_eq_iff name "genrecaux".toList
  have hname : internalName name = '#' :: "genrec".toList := by decide
  have hplain : internalName "genrecaux".toList = "genrecaux".toList := by decide
  have hgenrec : Token.isIdent "genrec".toList := by decide
  refine ⟨hgenrec, hsame.2 (.inr (.inl ?_)), (hident (.inr ⟨_, hname, hgenrec⟩)).1⟩
  rw [hname, hplain]
  exact ⟨⟨_, rfl, by decide⟩, by decide⟩

end Optable.Symbol
