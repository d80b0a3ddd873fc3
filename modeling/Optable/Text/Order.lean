import Optable.Text.Blank
/-!
# The order of texts

Texts are ordered by the code points of their characters, from left to right; a text comes after
its own beginnings.  For texts in UTF-8 this is also the order of their bytes.
-/

namespace Optable.Text

def precedes : Text → Text → Bool
  | _, [] => false
  | [], _ :: _ => true
  | c :: s, d :: t => c.toNat < d.toNat || (c = d && precedes s t)

theorem precedes_cons {c d : Char} {s t : Text} :
    precedes (c :: s) (d :: t) ↔ c.toNat < d.toNat ∨ c = d ∧ precedes s t := by
  simp [precedes]

theorem precedes_irrefl (s : Text) : ¬ precedes s s := by
  induction s with
  | nil => simp [precedes]
  | cons c s ih => simpa [precedes_cons] using ih

theorem precedes_trans {s t u : Text} (hst : precedes s t) (htu : precedes t u) :
    precedes s u := by
  induction s generalizing t u with
  | nil =>
    rcases u with _ | ⟨e, u⟩
    · rcases t with _ | ⟨d, t⟩ <;> simp [precedes] at htu
    · simp [precedes]
  | cons c s ih =>
    rcases t with _ | ⟨d, t⟩
    · simp [precedes] at hst
    rcases u with _ | ⟨e, u⟩
    · simp [precedes] at htu
    rw [precedes_cons] at *
    rcases hst with hcd | ⟨rfl, hst⟩ <;> rcases htu with hde | ⟨rfl, htu⟩
    · exact .inl (Nat.lt_trans hcd hde)
    · exact .inl hcd
    · exact .inl hde
    · exact .inr ⟨rfl, ih hst htu⟩

theorem precedes_of_not_precedes {s t : Text} (h : ¬ precedes s t) (hne : s ≠ t) :
    precedes t s := by
  induction s generalizing t with
  | nil =>
    rcases t with _ | ⟨d, t⟩
    · exact absurd rfl hne
    · simp [precedes] at h
  | cons c s ih =>
    rcases t with _ | ⟨d, t⟩
    · simp [precedes]
    rw [precedes_cons, not_or, not_and] at h
    rw [precedes_cons]
    by_cases hcd : c = d
    · exact .inr ⟨hcd.symm, ih (h.2 hcd) fun hst => hne (by rw [hcd, hst])⟩
    · have : c.toNat ≠ d.toNat := fun h => hcd (Char.toNat_inj.1 h)
      omega

end Optable.Text
