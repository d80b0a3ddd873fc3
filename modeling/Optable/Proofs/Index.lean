import Optable.Index
import Optable.Proofs.Blank
/-!
# Index texts

Reading digits adds them to what is read already, as long as the number stays in range.  The main
statements are `read_eq_number_iff` and `read_eq_outOfRange_iff`: a text is read as a number exactly
where it spells that number and the number is in range, whatever sign or leading zeros it is spelled
with, and as out of range exactly where its digits spell a number that is not, whatever stands
behind them.
-/

namespace Optable.Index

/-- A number with a sign. -/
def signed (negative : Bool) (n : Nat) : Int := if negative then -n else n

/-- A text spells a number by its digits, with one sign in front of them at most. -/
inductive Spells : Text → Int → Prop
  | unsigned {digits : Text} (hne : digits ≠ []) (hdigits : ∀ c ∈ digits, c.isDigit) :
      Spells digits (signed false (Nat.ofDigitChars 10 digits 0))
  | plus {digits : Text} (hne : digits ≠ []) (hdigits : ∀ c ∈ digits, c.isDigit) :
      Spells ('+' :: digits) (signed false (Nat.ofDigitChars 10 digits 0))
  | minus {digits : Text} (hne : digits ≠ []) (hdigits : ∀ c ∈ digits, c.isDigit) :
      Spells ('-' :: digits) (signed true (Nat.ofDigitChars 10 digits 0))

/-- A number that fits into 64 bits with a sign. -/
def Fits64 (v : Int) : Prop := -9223372036854775808 ≤ v ∧ v ≤ 9223372036854775807

/-- A text starts with a number out of range and goes on with something other than a digit. -/
def Overshoots (t : Text) : Prop :=
  ∃ number rest v, t = number ++ rest ∧ Spells number v ∧ ¬ Fits64 v ∧
    Text.StopsAt Char.isDigit rest

theorem inRange_iff {v : Int} : InRange v ↔ Fits64 v := Iff.rfl

/-! ## Digits -/

theorem digit?_of_isDigit {c : Char} (h : c.isDigit) :
    Text.digit? c = some (c.toNat - '0'.toNat) := by
  rw [Text.digit?, if_pos h]

theorem isDigit_of_digit?_eq_some {c : Char} {d : Nat} (h : Text.digit? c = some d) :
    c.isDigit ∧ d = c.toNat - '0'.toNat := by
  unfold Text.digit? at h
  split at h
  · next hc => exact ⟨hc, (Option.some.inj h).symm⟩
  · simp at h

theorem le_ofDigitChars (t : Text) (n : Nat) : n ≤ Nat.ofDigitChars 10 t n := by
  induction t generalizing n with
  | nil => simp
  | cons c t ih =>
    rw [Nat.ofDigitChars_cons]
    have := ih (10 * n + (c.toNat - '0'.toNat))
    omega

theorem inRange_signed_of_le {negative : Bool} {m n : Nat} (hle : m ≤ n)
    (h : InRange (signed negative n)) : InRange (signed negative m) := by
  unfold InRange signed least greatest at *
  split <;> simp_all <;> omega

/-- One more digit of a number with a sign. -/
theorem next_signed (negative : Bool) (n d : Nat) :
    (if negative then 10 * signed negative n - (d : Int) else 10 * signed negative n + d) =
      signed negative (10 * n + d) := by
  unfold signed
  split <;> omega

theorem signed_zero (negative : Bool) : signed negative 0 = 0 := by
  cases negative <;> rfl

/-- Digits are read as further digits of the number before them. -/
theorem readDigits_eq_number {negative : Bool} {t : Text} {n : Nat} (ht : ∀ c ∈ t, c.isDigit)
    (h : InRange (signed negative (Nat.ofDigitChars 10 t n))) :
    readDigits negative (signed negative n) t =
      .number (signed negative (Nat.ofDigitChars 10 t n)) := by
  induction t generalizing n with
  | nil => simp [readDigits]
  | cons c t ih =>
    rw [Nat.ofDigitChars_cons] at h ⊢
    rw [readDigits, digit?_of_isDigit (ht c (by simp))]
    simp only [next_signed]
    rw [if_pos (inRange_signed_of_le (le_ofDigitChars t _) h)]
    exact ih (fun d hd => ht d (List.mem_cons_of_mem _ hd)) h

theorem of_readDigits_eq_number {negative : Bool} {t : Text} {n : Nat} {v : Int}
    (h : readDigits negative (signed negative n) t = .number v) :
    (∀ c ∈ t, c.isDigit) ∧ v = signed negative (Nat.ofDigitChars 10 t n) := by
  induction t generalizing n with
  | nil =>
    simp only [readDigits, Reading.number.injEq] at h
    exact ⟨List.forall_mem_nil _, by rw [Nat.ofDigitChars_nil, h]⟩
  | cons c t ih =>
    rw [readDigits] at h
    split at h
    · simp at h
    · next d hd =>
      obtain ⟨hc, rfl⟩ := isDigit_of_digit?_eq_some hd
      simp only [next_signed] at h
      split at h
      · obtain ⟨ht, rfl⟩ := ih h
        exact ⟨List.forall_mem_cons.2 ⟨hc, ht⟩, by rw [Nat.ofDigitChars_cons]⟩
      · simp at h

theorem readDigits_zero_eq_number_iff {negative : Bool} {t : Text} {v : Int} :
    readDigits negative 0 t = .number v ↔
      (∀ c ∈ t, c.isDigit) ∧ v = signed negative (Nat.ofDigitChars 10 t 0) ∧ InRange v := by
  constructor
  · intro h
    obtain ⟨ht, hv⟩ := of_readDigits_eq_number (n := 0) ((signed_zero negative).symm ▸ h)
    exact ⟨ht, hv, inRange_of_readDigits (by decide) h⟩
  · rintro ⟨ht, rfl, hrange⟩
    have hread := readDigits_eq_number ht hrange
    rwa [signed_zero] at hread

/-- Reading leaves the range exactly where the digits at the start make a number out of range.
Adding digits never comes back into the range, so the first number out of range decides. -/
theorem readDigits_eq_outOfRange_iff {negative : Bool} {t : Text} {n : Nat}
    (hn : InRange (signed negative n)) :
    readDigits negative (signed negative n) t = .outOfRange ↔
      ¬ InRange (signed negative (Nat.ofDigitChars 10 (t.takeWhile Char.isDigit) n)) := by
  induction t generalizing n with
  | nil => simp [readDigits, hn]
  | cons c t ih =>
    by_cases hc : c.isDigit
    · rw [readDigits, digit?_of_isDigit hc, List.takeWhile_cons_of_pos hc, Nat.ofDigitChars_cons]
      simp only [next_signed]
      split
      · next hnext => exact ih hnext
      · next hnext =>
        refine iff_of_true rfl fun hrange => hnext ?_
        exact inRange_signed_of_le (le_ofDigitChars _ _) hrange
    · rw [readDigits, Text.digit?, if_neg hc, List.takeWhile_cons_of_neg hc, Nat.ofDigitChars_nil]
      simp [hn]

theorem readDigits_zero_eq_outOfRange_iff {negative : Bool} {t : Text} :
    readDigits negative 0 t = .outOfRange ↔ ∃ digits rest, t = digits ++ rest ∧ digits ≠ [] ∧
      (∀ c ∈ digits, c.isDigit) ∧ Text.StopsAt Char.isDigit rest ∧
      ¬ InRange (signed negative (Nat.ofDigitChars 10 digits 0)) := by
  have hzero : InRange (signed negative 0) := by
    rw [signed_zero]
    decide
  rw [← signed_zero negative, readDigits_eq_outOfRange_iff hzero]
  constructor
  · intro h
    refine ⟨t.takeWhile Char.isDigit, t.dropWhile Char.isDigit,
      List.takeWhile_append_dropWhile.symm, ?_, ?_, Text.stopsAt_dropWhile _ _, h⟩
    · intro hnil
      rw [hnil] at h
      exact h hzero
    · exact List.all_eq_true.1 List.all_takeWhile
  · rintro ⟨digits, rest, rfl, -, hdigits, hrest, h⟩
    rwa [Text.takeWhile_append (List.all_eq_true.2 hdigits) hrest]

/-! ## Index texts -/

theorem read_of_isDigit {c : Char} (hc : c.isDigit) (t : Text) :
    read (c :: t) = readDigits false 0 (c :: t) := by
  have hplus : c ≠ '+' := by rintro rfl; exact absurd hc (by decide)
  have hminus : c ≠ '-' := by rintro rfl; exact absurd hc (by decide)
  unfold read
  split <;> simp_all

theorem read_plus {digits : Text} (h : digits ≠ []) :
    read ('+' :: digits) = readDigits false 0 digits := by
  rw [read]
  exact h

theorem read_minus {digits : Text} (h : digits ≠ []) :
    read ('-' :: digits) = readDigits true 0 digits := by
  rw [read]
  exact h

/-- A text that is read as some number is a sign, or none, with digits behind it. -/
theorem exists_sign_of_read {t : Text} (h : read t ≠ .notNumber) :
    ∃ sign negative digits, t = sign ++ digits ∧ digits ≠ [] ∧
      read t = readDigits negative 0 digits ∧ ∀ number, number ≠ [] → (∀ c ∈ number, c.isDigit) →
        Spells (sign ++ number) (signed negative (Nat.ofDigitChars 10 number 0)) := by
  unfold read at h ⊢
  split at h
  · exact absurd rfl h
  · exact absurd rfl h
  · exact absurd rfl h
  · next digits hne => exact ⟨['+'], false, digits, rfl, hne, rfl, fun _ => .plus⟩
  · next digits hne => exact ⟨['-'], true, digits, rfl, hne, rfl, fun _ => .minus⟩
  · next hne _ _ _ _ => exact ⟨[], false, t, rfl, hne, rfl, fun _ => .unsigned⟩

/-- The digits that spell a number are read as digits, whatever stands behind them. -/
theorem Spells.exists_digits {number : Text} {v : Int} (h : Spells number v) :
    ∃ negative digits, digits ≠ [] ∧ (∀ c ∈ digits, c.isDigit) ∧
      v = signed negative (Nat.ofDigitChars 10 digits 0) ∧
      ∀ rest, read (number ++ rest) = readDigits negative 0 (digits ++ rest) := by
  cases h with
  | unsigned hne hdigits =>
    refine ⟨false, number, hne, hdigits, rfl, fun rest => ?_⟩
    obtain ⟨c, digits, rfl⟩ := List.exists_cons_of_ne_nil hne
    exact read_of_isDigit (hdigits c List.mem_cons_self) _
  | @plus digits hne hdigits =>
    refine ⟨false, digits, hne, hdigits, rfl, fun rest => ?_⟩
    exact read_plus (List.append_ne_nil_of_left_ne_nil hne rest)
  | @minus digits hne hdigits =>
    refine ⟨true, digits, hne, hdigits, rfl, fun rest => ?_⟩
    exact read_minus (List.append_ne_nil_of_left_ne_nil hne rest)

/-- A text is read as a number exactly where it spells that number and the number is in range. -/
theorem read_eq_number_iff {t : Text} {v : Int} :
    read t = .number v ↔ Spells t v ∧ InRange v := by
  constructor
  · intro h
    obtain ⟨sign, negative, digits, rfl, hne, hread, hspells⟩ :=
      exists_sign_of_read (by rw [h]; simp)
    rw [hread] at h
    obtain ⟨hdigits, rfl, hrange⟩ := readDigits_zero_eq_number_iff.1 h
    exact ⟨hspells digits hne hdigits, hrange⟩
  · rintro ⟨h, hrange⟩
    obtain ⟨negative, digits, -, hdigits, rfl, hread⟩ := h.exists_digits
    have hread := hread []
    rw [List.append_nil, List.append_nil] at hread
    rw [hread]
    exact readDigits_zero_eq_number_iff.2 ⟨hdigits, rfl, hrange⟩

example : read "+007".toList = read "7".toList := by decide

theorem spells_of_read_eq_number {t : Text} {v : Int} (h : read t = .number v) : Spells t v :=
  (read_eq_number_iff.1 h).1

/-- A text is read as out of range exactly where it starts with the digits of such a number. -/
theorem read_eq_outOfRange_iff {t : Text} : read t = .outOfRange ↔ Overshoots t := by
  constructor
  · intro h
    obtain ⟨sign, negative, digits, rfl, -, hread, hspells⟩ :=
      exists_sign_of_read (by rw [h]; simp)
    rw [hread] at h
    obtain ⟨number, rest, rfl, hne, hnumber, hrest, hrange⟩ :=
      readDigits_zero_eq_outOfRange_iff.1 h
    exact ⟨sign ++ number, rest, _, (List.append_assoc sign number rest).symm,
      hspells number hne hnumber, mt inRange_iff.2 hrange, hrest⟩
  · rintro ⟨number, rest, v, rfl, hspells, hrange, hrest⟩
    obtain ⟨negative, digits, hne, hdigits, rfl, hread⟩ := hspells.exists_digits
    rw [hread]
    exact readDigits_zero_eq_outOfRange_iff.2
      ⟨digits, rest, rfl, hne, hdigits, hrest, mt inRange_iff.1 hrange⟩

example : read "-9223372036854775808".toList = .number least ∧
    read "+09223372036854775808x".toList = .outOfRange := by decide

/-- Any other text is no number. -/
theorem read_eq_notNumber_iff {t : Text} :
    read t = .notNumber ↔ (∀ v, Spells t v → ¬ InRange v) ∧ ¬ Overshoots t := by
  rw [← read_eq_outOfRange_iff]
  have hnumber (v : Int) : (Spells t v → ¬ InRange v) ↔ read t ≠ .number v := by
    rw [Ne, read_eq_number_iff, not_and]
  simp only [hnumber]
  cases read t <;> simp

/-! ## Decimal texts -/

theorem isDigit_of_mem_ofNat {n : Nat} {c : Char} (h : c ∈ Text.ofNat n) : c.isDigit :=
  Nat.isDigit_of_mem_toDigits (by decide) (by decide) h

theorem spells_ofInt (i : Int) : Spells (Text.ofInt i) i := by
  have hne (n : Nat) : Text.ofNat n ≠ [] := Nat.toDigits_ne_nil
  have hvalue (n : Nat) : Nat.ofDigitChars 10 (Text.ofNat n) 0 = n :=
    Nat.ofDigitChars_ten_toDigits
  have hdigits (n : Nat) : ∀ c ∈ Text.ofNat n, c.isDigit := fun _ => isDigit_of_mem_ofNat
  cases i with
  | ofNat n =>
    have h := Spells.unsigned (hne n) (hdigits n)
    rwa [hvalue] at h
  | negSucc n =>
    have h := Spells.minus (hne (n + 1)) (hdigits (n + 1))
    rwa [hvalue] at h

/-- A number in range is read back from its decimal text. -/
theorem read_ofInt {i : Int} (h : InRange i) : read (Text.ofInt i) = .number i :=
  read_eq_number_iff.2 ⟨spells_ofInt i, h⟩

/-- The characters of a decimal text. -/
theorem mem_ofInt {i : Int} {c : Char} (h : c ∈ Text.ofInt i) : c = '-' ∨ c.isDigit := by
  cases i with
  | ofNat n => exact .inr (isDigit_of_mem_ofNat h)
  | negSucc n =>
    rcases List.mem_cons.1 h with rfl | h
    · exact .inl rfl
    · exact .inr (isDigit_of_mem_ofNat h)

theorem ofInt_ne_nil (i : Int) : Text.ofInt i ≠ [] := by
  cases i with
  | ofNat n => exact Nat.toDigits_ne_nil
  | negSucc n => exact List.cons_ne_nil _ _

end Optable.Index
