import Optable.Proofs.Encoding
import Optable.Proofs.Partition
/-!
# Reading by offsets

At every offset that reading comes to when it looks for a token, a text is left (`RestAt`).  All
bytes of a character belong to a class of ASCII characters or to none, just as the character does,
so that runs of characters, literals and comments end where they do in the text.  The one offset
that may lie inside a character is the one behind a backslash; from there reading goes on to the end
of the character.  So nothing is cut apart, and the tokens are those of the text.
-/

namespace Optable

namespace Token.Offsets

open Text (toBytes)

/-! ## Classes of bytes -/

section Classes

variable {c d : Char} {p : Char → Bool}

/-- The answer that a class gives for every character outside ASCII. -/
def AnswersBeyond (p : Char → Bool) (answer : Bool) : Prop :=
  ∀ c : Char, 128 ≤ c.toNat → p c = answer

theorem answersBeyond_eq (hd : d.toNat < 128) : AnswersBeyond (· = d) false := by
  intro c hc
  rw [decide_eq_false_iff_not]
  rintro rfl
  omega

theorem answersBeyond_ne (hd : d.toNat < 128) : AnswersBeyond (· ≠ d) true := by
  intro c hc
  rw [decide_eq_true_iff]
  rintro rfl
  omega

theorem answersBeyond_isIdentPart : AnswersBeyond isIdentPart false := by
  intro c hc
  rw [← Bool.not_eq_true, isIdentPart, Bool.or_eq_true, decide_eq_true_eq, Char.isAlphanum,
    Bool.or_eq_true]
  rintro ((halpha | hdigit) | rfl)
  · have := toNat_of_isAlpha halpha
    omega
  · have := toNat_of_isDigit hdigit
    omega
  · exact absurd hc (by decide)

theorem answersBeyond_isNumberPart : AnswersBeyond isNumberPart false := by
  intro c hc
  have hpart := answersBeyond_isIdentPart c hc
  rw [isIdentPart, Bool.or_eq_false_iff] at hpart
  rw [isNumberPart, hpart.1, Bool.false_or]
  exact answersBeyond_eq (by decide) c hc

theorem answersBeyond_isIdentStart : AnswersBeyond isIdentStart false := fun c hc =>
  (isIdentPart_eq_false_iff.1 (answersBeyond_isIdentPart c hc)).1

theorem answersBeyond_isDigit : AnswersBeyond Char.isDigit false := fun c hc =>
  (isIdentPart_eq_false_iff.1 (answersBeyond_isIdentPart c hc)).2

theorem answersBeyond_isGap : AnswersBeyond isGap false := by
  intro c hc
  rw [← Bool.not_eq_true, isGap_iff]
  rintro (rfl | rfl | rfl | rfl | rfl) <;> exact absurd hc (by decide)

theorem toNat_lt_of_isQuote (h : isQuote c) : c.toNat < 128 := by
  rcases isQuote_iff.1 h with rfl | rfl <;> decide

theorem toNat_ofNat_toNat (b : UInt8) : (Char.ofNat b.toNat).toNat = b.toNat := by
  have hb : b.toNat < 256 := b.toNat_lt
  have hvalid : b.toNat.isValidChar := .inl (by omega)
  rw [Char.ofNat, dif_pos hvalid]
  rfl

end Classes

/-! ## The text from an offset on -/

/-- The bytes from an offset on spell a text, and those before it spell another one. -/
def RestAt (bytes : ByteArray) (i : Nat) (t : Text) : Prop :=
  ∃ s, toBytes (s ++ t) = bytes ∧ (toBytes s).size = i

section Rest

variable {bytes : ByteArray} {i j k : Nat} {s t u : Text} {c : Char} {p : Char → Bool}
  {answer : Bool}

theorem restAt_zero (t : Text) : RestAt (toBytes t) 0 t := ⟨[], rfl, rfl⟩

theorem RestAt.append (h : RestAt bytes i (s ++ t)) : RestAt bytes (i + (toBytes s).size) t := by
  obtain ⟨before, rfl, rfl⟩ := h
  exact ⟨before ++ s, by rw [List.append_assoc], Text.size_toBytes_append before s⟩

theorem RestAt.cons (h : RestAt bytes i (c :: t)) : RestAt bytes (i + c.utf8Size) t := by
  rw [← Text.size_toBytes_singleton]
  exact RestAt.append (s := [c]) h

theorem RestAt.add_size (h : RestAt bytes i t) : i + (toBytes t).size = bytes.size := by
  obtain ⟨before, rfl, rfl⟩ := h
  rw [Text.size_toBytes_append]

theorem RestAt.eq_size (h : RestAt bytes i []) : i = bytes.size := h.add_size

theorem RestAt.lt_size (h : RestAt bytes i (c :: t)) (hk : k < c.utf8Size) :
    i + k < bytes.size := by
  rw [← h.add_size, Text.size_toBytes_cons]
  omega

theorem exists_restAt (h : i < (toBytes t).size) :
    ∃ start c u k, RestAt (toBytes t) start (c :: u) ∧ k < c.utf8Size ∧ i = start + k := by
  suffices ∃ s c u k, t = s ++ c :: u ∧ k < c.utf8Size ∧ i = (toBytes s).size + k by
    obtain ⟨s, c, u, k, rfl, hk, hi⟩ := this
    exact ⟨_, c, u, k, ⟨s, rfl, rfl⟩, hk, hi⟩
  induction t generalizing i with
  | nil => exact absurd h (Nat.not_lt_zero i)
  | cons c t ih =>
    by_cases hi : i < c.utf8Size
    · exact ⟨[], c, t, i, rfl, hi, (Nat.zero_add i).symm⟩
    · rw [Text.size_toBytes_cons] at h
      obtain ⟨s, d, u, k, rfl, hk, heq⟩ := ih (i := i - c.utf8Size) (by omega)
      refine ⟨c :: s, d, u, k, rfl, hk, ?_⟩
      rw [Text.size_toBytes_cons]
      omega

/-- Every byte of a character is in a class of ASCII characters, or outside of it, as the character
is. -/
theorem RestAt.has_eq (h : RestAt bytes i (c :: t)) (hp : AnswersBeyond p answer)
    (hk : k < c.utf8Size) : has bytes (i + k) p = p c := by
  obtain ⟨before, rfl, rfl⟩ := h
  rw [has, Text.getElem?_toBytes_append, Text.getElem?_toBytes_cons t hk]
  by_cases hascii : c.toNat < 128
  · obtain rfl : k = 0 := by
      rw [Text.utf8Size_of_ascii hascii] at hk
      omega
    have hbyte : (UInt8.ofNat c.toNat).toNat = c.toNat := by
      rw [UInt8.toNat_ofNat', Nat.mod_eq_of_lt (by omega)]
    rw [Text.utf8EncodeChar_of_ascii hascii, List.getElem?_cons_zero, Option.any_some, hbyte,
      Char.ofNat_toNat]
  · have hbeyond := Nat.not_lt.1 hascii
    rw [← String.length_utf8EncodeChar] at hk
    rw [List.getElem?_eq_getElem hk, Option.any_some, hp c hbeyond]
    refine hp _ ?_
    rw [toNat_ofNat_toNat]
    exact Text.le_of_mem_utf8EncodeChar hbeyond (List.getElem_mem hk)

theorem has_of_size_le (h : bytes.size ≤ i) (p : Char → Bool) : has bytes i p = false := by
  rw [has, getElem?_neg bytes i (Nat.not_lt.2 h)]
  rfl

theorem RestAt.has_head (h : RestAt bytes i t) (hp : AnswersBeyond p answer) :
    has bytes i p = t.head?.any p := by
  cases t with
  | nil =>
    rw [has_of_size_le (Nat.le_of_eq h.eq_size.symm)]
    rfl
  | cons c t => exact h.has_eq (k := 0) hp c.utf8Size_pos

/-- A character starts where a text can be cut. -/
theorem RestAt.boundary (h : RestAt bytes i t) : isBoundary bytes i := by
  obtain ⟨before, rfl, rfl⟩ := h
  have hbyte : (toBytes (before ++ t))[(toBytes before).size]? = (toBytes t)[0]? :=
    Text.getElem?_toBytes_append before t 0
  rw [isBoundary, hbyte]
  cases t with
  | nil =>
    rw [getElem?_neg (toBytes []) 0 (Nat.lt_irrefl _), List.append_nil]
    exact decide_eq_true rfl
  | cons c t =>
    rw [Text.getElem?_toBytes_cons t c.utf8Size_pos]
    have hfirst : ∃ first rest, String.utf8EncodeChar c = first :: rest ∧ ¬ continues first := by
      by_cases hascii : c.toNat < 128
      · refine ⟨_, _, Text.utf8EncodeChar_of_ascii hascii, ?_⟩
        rw [continues, UInt8.toNat_ofNat', Nat.mod_eq_of_lt (by omega), Bool.and_eq_true,
          decide_eq_true_eq]
        omega
      · obtain ⟨first, rest, hbytes, hle, -⟩ := Text.exists_utf8EncodeChar (Nat.not_lt.1 hascii)
        refine ⟨first, rest, hbytes, ?_⟩
        rw [continues, Bool.and_eq_true, decide_eq_true_eq, decide_eq_true_eq]
        omega
    obtain ⟨first, rest, hbytes, hfirst⟩ := hfirst
    simp [hbytes, hfirst]

theorem RestAt.slice?_eq (h : RestAt bytes i (s ++ t)) :
    slice? bytes i (i + (toBytes s).size) = some s := by
  have hstart := h.boundary
  have hstop := h.append.boundary
  rw [slice?, if_pos ⟨Nat.le_add_right _ _, hstart, hstop⟩]
  obtain ⟨before, rfl, rfl⟩ := h
  rw [Text.toBytes_append before (s ++ t), ← Nat.add_zero (toBytes before).size,
    Nat.add_assoc, ByteArray.extract_append_size_add, Nat.zero_add, Text.toBytes_append s t,
    ByteArray.extract_append_eq_left rfl, Text.ofBytes?_toBytes]

end Rest

/-! ## Reading inside a token -/

section Loops

variable {α : Type} {bytes : ByteArray} {i j k n : Nat} {t : Text} {c quote : Char}
  {p : Char → Bool} {answer : Bool}

theorem eq_add_of_steps (f : Nat → α) (i : Nat) (hk : k ≤ n)
    (h : ∀ j, k ≤ j → j < n → f (i + j) = f (i + j + 1)) : f (i + k) = f (i + n) := by
  induction n, hk using Nat.le_induction with
  | base => rfl
  | succ n hle ih =>
    rw [ih fun j hj hlt => h j hj (Nat.lt_succ_of_lt hlt), h n hle (Nat.lt_succ_self n)]
    rfl

theorem skipWhile_eq (bytes : ByteArray) (p : Char → Bool) (i : Nat) :
    skipWhile bytes p i = if has bytes i p then skipWhile bytes p (i + 1) else i := by
  rw [skipWhile, has]
  by_cases hi : i < bytes.size
  · rw [dif_pos hi, getElem?_pos bytes i hi]
    rfl
  · rw [dif_neg hi, getElem?_neg bytes i hi]
    rfl

theorem RestAt.skipWhile_eq_add (h : RestAt bytes i t) (hp : AnswersBeyond p answer) :
    skipWhile bytes p i = i + (toBytes (t.takeWhile p)).size := by
  induction t generalizing i with
  | nil =>
    rw [skipWhile_eq, h.has_head hp]
    rfl
  | cons c t ih =>
    cases hc : p c with
    | false =>
      rw [skipWhile_eq, h.has_head hp, List.takeWhile_cons_of_neg (by simp [hc])]
      simp [hc, Text.size_toBytes_nil]
    | true =>
      -- The run goes on through every byte of the character.
      have hpass : skipWhile bytes p i = skipWhile bytes p (i + c.utf8Size) := by
        refine eq_add_of_steps (skipWhile bytes p) i (Nat.zero_le c.utf8Size) ?_
        intro j _ hj
        rw [skipWhile_eq, h.has_eq hp hj, hc, if_pos rfl]
      rw [hpass, ih h.cons, List.takeWhile_cons_of_pos hc, Text.size_toBytes_cons, Nat.add_assoc]

theorem RestAt.afterQuote_at (h : RestAt bytes i (c :: t)) (hquote : isQuote quote)
    (hk : k < c.utf8Size) :
    afterQuote bytes quote (i + k) =
      if c = '\\' then afterQuote bytes quote (i + k + 2)
      else if c = '\n' then i + k
      else if c = quote then i + k + 1
      else afterQuote bytes quote (i + k + 1) := by
  rw [afterQuote, if_pos (h.lt_size hk), h.has_eq (answersBeyond_eq (by decide)) hk,
    h.has_eq (answersBeyond_eq (by decide)) hk,
    h.has_eq (answersBeyond_eq (toNat_lt_of_isQuote hquote)) hk]
  simp only [decide_eq_true_eq]

/-- A character that means nothing in a literal is passed over, from any offset in it. -/
theorem RestAt.afterQuote_pass (h : RestAt bytes i (c :: t)) (hquote : isQuote quote)
    (hk : k ≤ c.utf8Size) (hplain : k < c.utf8Size → c ≠ '\\' ∧ c ≠ '\n' ∧ c ≠ quote) :
    afterQuote bytes quote (i + k) = afterQuote bytes quote (i + c.utf8Size) := by
  refine eq_add_of_steps (afterQuote bytes quote) i hk ?_
  intro j hle hlt
  obtain ⟨hbackslash, hfeed, hne⟩ := hplain (Nat.lt_of_le_of_lt hle hlt)
  rw [h.afterQuote_at hquote hlt, if_neg hbackslash, if_neg hfeed, if_neg hne]

/-- A step over two bytes goes on behind the character that a backslash takes along. -/
theorem RestAt.afterQuote_backslash (h : RestAt bytes i ('\\' :: c :: t)) (hquote : isQuote quote) :
    afterQuote bytes quote i = afterQuote bytes quote (i + 1 + c.utf8Size) := by
  -- The step ends behind the first byte of the character, and goes on from there.
  have hpass := h.cons.afterQuote_pass (k := 1) hquote c.utf8Size_pos ?_
  · rw [← Nat.add_zero i, h.afterQuote_at hquote ('\\').utf8Size_pos, if_pos rfl]
    exact hpass
  · -- A character of more than one byte is none of ASCII.
    intro hlong
    have hbeyond : ¬ c.toNat < 128 := by
      intro hascii
      rw [Text.utf8Size_of_ascii hascii] at hlong
      omega
    refine ⟨?_, ?_, ?_⟩ <;> rintro rfl <;> refine hbeyond ?_
    · decide
    · decide
    · exact toNat_lt_of_isQuote hquote

/-- Reading a literal by offsets leaves what reading it by characters leaves. -/
theorem restAt_afterQuote (h : RestAt bytes i t) (hquote : isQuote quote) :
    RestAt bytes (afterQuote bytes quote i) (Token.afterQuote quote t) := by
  fun_induction Token.afterQuote quote t generalizing i with
  | case1 =>
    rw [afterQuote, if_neg (Nat.not_lt.2 (Nat.le_of_eq h.eq_size.symm)), ← h.eq_size]
    exact h
  | case2 d t ih =>
    rw [h.afterQuote_backslash hquote]
    exact ih h.cons.cons
  | case3 t =>
    have hat := h.afterQuote_at (k := 0) hquote ('\n').utf8Size_pos
    rw [if_neg (by decide), if_pos rfl, Nat.add_zero] at hat
    rwa [hat]
  | case4 t =>
    have hat := h.afterQuote_at (k := 0) hquote quote.utf8Size_pos
    obtain ⟨hbackslash, hfeed⟩ := ne_of_isQuote hquote
    rw [if_neg hbackslash, if_neg hfeed, if_pos rfl, Nat.add_zero] at hat
    rw [hat, ← Text.utf8Size_of_ascii (toNat_lt_of_isQuote hquote)]
    exact h.cons
  | case5 c t hescape hfeed hne ih =>
    by_cases hbackslash : c = '\\'
    · -- A backslash that takes nothing along is the last character, and its step leaves the bytes.
      subst hbackslash
      obtain rfl : t = [] := List.eq_nil_iff_forall_not_mem.2 fun d hd => by
        obtain ⟨e, t, rfl⟩ := List.exists_cons_of_ne_nil (List.ne_nil_of_mem hd)
        exact hescape e t rfl rfl
      have hat := h.afterQuote_at (k := 0) hquote ('\\').utf8Size_pos
      have hend : i + 1 = bytes.size := h.cons.eq_size
      rw [if_pos rfl, Nat.add_zero, afterQuote.eq_def bytes quote (i + 2),
        if_neg (by omega), ← hend] at hat
      rw [hat]
      exact h.cons
    · have hpass := h.afterQuote_pass (k := 0) hquote (Nat.zero_le _) fun _ =>
        ⟨hbackslash, hfeed, hne⟩
      rw [Nat.add_zero] at hpass
      rw [hpass]
      exact ih h.cons

/-- The first closing delimiter of a comment is found where the text of the comment ends. -/
theorem RestAt.findClose?_eq (h : RestAt bytes i t) :
    findClose? bytes i = (untilClose? t).map fun found => i + (toBytes found.1).size := by
  fun_induction untilClose? t generalizing i with
  | case1 =>
    rw [findClose?, if_neg (Nat.not_lt.2 (Nat.le_of_eq h.eq_size.symm))]
    rfl
  | case2 t =>
    have hlt : i < bytes.size := h.lt_size (k := 0) ('*').utf8Size_pos
    have hslash := RestAt.has_head (i := i + 1) h.cons (answersBeyond_eq (d := '/') (by decide))
    rw [findClose?, if_pos hlt, h.has_head (answersBeyond_eq (by decide)), hslash]
    rfl
  | case3 c t hne ih =>
    -- No star and slash stand at a byte of the character: a star is the whole of it, and the slash
    -- would be the next character.
    have hpass : findClose? bytes i = findClose? bytes (i + c.utf8Size) := by
      refine eq_add_of_steps (findClose? bytes) i (Nat.zero_le c.utf8Size) fun j _ hj => ?_
      have hno : ¬ (has bytes (i + j) (· = '*') && has bytes (i + j + 1) (· = '/')) := by
        rw [h.has_eq (answersBeyond_eq (by decide)) hj, Bool.and_eq_true, decide_eq_true_eq]
        rintro ⟨rfl, hslash⟩
        obtain rfl : j = 0 := Nat.lt_one_iff.1 hj
        rw [RestAt.has_head (i := i + 1) h.cons (answersBeyond_eq (by decide))] at hslash
        cases t with
        | nil => cases hslash
        | cons d t => exact hne t rfl (by rw [of_decide_eq_true hslash])
      rw [findClose?, if_pos (h.lt_size hj), if_neg hno]
    rw [hpass, ih h.cons, Option.map_map]
    refine congrArg (Option.map · _) (funext fun found => ?_)
    rw [Function.comp_apply, Text.size_toBytes_cons, Nat.add_assoc]

end Loops

/-! ## Reading a token -/

section Tokens

variable {bytes : ByteArray} {i : Nat} {t rest : Text} {c : Char} {token : Token}

theorem RestAt.slice?_size (h : RestAt bytes i t) : slice? bytes i bytes.size = some t := by
  rw [← h.add_size]
  rw [← List.append_nil t] at h
  exact h.slice?_eq

/-- What stands at an offset goes by the character there, and behind a slash by the one after it. -/
theorem RestAt.find_at (h : RestAt bytes i (c :: t)) :
    find bytes i =
      if isGap c then .gap (i + 1)
      else if c = '/' ∧ t.head? = some '*' then
        match slice? bytes (i + 2) bytes.size, findClose? bytes (i + 2) with
        | none, _ => .badCut
        | some _, none => .openComment
        | some _, some close => tokenTo bytes (i + 2) close (close + 2) ofComment
      else if c = '/' ∧ t.head? = some '/' then
        tokenTo bytes i bytes.size (skipWhile bytes (· ≠ '\n') i) fun _ => .lineComment
      else if isQuote c then .token .literal (afterQuote bytes c (i + 1))
      else if isIdentStart c then
        tokenTo bytes i (skipWhile bytes isIdentPart i) (skipWhile bytes isIdentPart i) .ident
      else if c.isDigit then .token .literal (skipWhile bytes isNumberPart i)
      else .token (.punct c) (i + c.utf8Size) := by
  have hat {p : Char → Bool} {answer : Bool} (hp : AnswersBeyond p answer) : has bytes i p = p c :=
    h.has_eq (k := 0) hp c.utf8Size_pos
  have hslash (d : Char) (hd : d.toNat < 128) :
      (has bytes i (· = '/') && has bytes (i + 1) (· = d)) =
        decide (c = '/' ∧ t.head? = some d) := by
    rw [hat (answersBeyond_eq (by decide))]
    by_cases hc : c = '/'
    · subst hc
      rw [RestAt.has_head (i := i + 1) h.cons (answersBeyond_eq hd)]
      cases t <;> simp
    · simp [hc]
  rw [find, hat answersBeyond_isGap, hslash '*' (by decide), hslash '/' (by decide),
    hat (answersBeyond_eq (by decide)), hat (answersBeyond_eq (by decide)),
    hat answersBeyond_isIdentStart, hat answersBeyond_isDigit, h.slice?_size]
  simp only [decide_eq_true_eq]
  refine if_congr Iff.rfl rfl (if_congr Iff.rfl rfl (if_congr Iff.rfl rfl ?_))
  by_cases hdouble : c = '"'
  · subst hdouble
    rfl
  by_cases hsingle : c = '\''
  · subst hsingle
    rfl
  have hquote : ¬ isQuote c := by simp [isQuote_iff, hdouble, hsingle]
  rw [if_neg hdouble, if_neg hsingle, if_neg hquote]

theorem RestAt.takeWhile (h : RestAt bytes i t) {p : Char → Bool} {answer : Bool}
    (hp : AnswersBeyond p answer) :
    slice? bytes i (skipWhile bytes p i) = some (t.takeWhile p) ∧
      RestAt bytes (skipWhile bytes p i) (t.dropWhile p) := by
  rw [h.skipWhile_eq_add hp]
  rw [← List.takeWhile_append_dropWhile (p := p) (l := t)] at h
  exact ⟨h.slice?_eq, h.append⟩

/-- Reading at an offset finds the token that stands there, and goes on behind its lexeme. -/
theorem RestAt.find_of_eq_some (h : RestAt bytes i (c :: t)) (hgap : isGap c = false)
    (hnext : next? (c :: t) = some (token, rest)) :
    ∃ next, find bytes i = .token token next ∧ RestAt bytes next rest := by
  rw [h.find_at, if_neg (by simp [hgap])]
  by_cases hslash : c = '/' ∧ (t.head? = some '*' ∨ t.head? = some '/')
  · obtain ⟨rfl, hstar | hslash⟩ := hslash
    · obtain ⟨t, rfl⟩ := List.head?_eq_some_iff.1 hstar
      have hbody : RestAt bytes (i + 2) t := h.cons.cons
      rw [if_pos ⟨rfl, rfl⟩, hbody.slice?_size, hbody.findClose?_eq]
      rw [next?_slash_star] at hnext
      obtain ⟨found, hfound, heq⟩ := Option.map_eq_some_iff.1 hnext
      obtain ⟨raw, rest'⟩ := found
      obtain ⟨rfl, rfl⟩ := Prod.mk.inj heq
      rw [hfound]
      rw [untilClose?_eq_some hfound] at hbody
      refine ⟨_, ?_, hbody.append.cons.cons⟩
      show tokenTo bytes (i + 2) _ _ ofComment = _
      rw [tokenTo, hbody.slice?_eq]
      rfl
    · obtain ⟨t, rfl⟩ := List.head?_eq_some_iff.1 hslash
      rw [if_neg (by simp), if_pos ⟨rfl, rfl⟩, tokenTo, h.slice?_size]
      rw [next?_slash_slash] at hnext
      obtain ⟨rfl, rfl⟩ := Prod.mk.inj (Option.some.inj hnext)
      exact ⟨_, rfl, (h.takeWhile (answersBeyond_ne (by decide))).2⟩
  · have hstar : ¬ (c = '/' ∧ t.head? = some '*') := fun hc => hslash ⟨hc.1, .inl hc.2⟩
    have hslash : ¬ (c = '/' ∧ t.head? = some '/') := fun hc => hslash ⟨hc.1, .inr hc.2⟩
    rw [if_neg hstar, if_neg hslash]
    rw [next?_cons fun hc => ⟨fun ht => hstar ⟨hc, ht⟩, fun ht => hslash ⟨hc, ht⟩⟩] at hnext
    split at hnext
    · next hquote =>
      obtain ⟨rfl, rfl⟩ := Prod.mk.inj (Option.some.inj hnext)
      have hbehind := h.cons
      rw [Text.utf8Size_of_ascii (toNat_lt_of_isQuote hquote)] at hbehind
      rw [if_pos hquote]
      exact ⟨_, rfl, restAt_afterQuote hbehind hquote⟩
    · next hquote =>
      rw [if_neg hquote]
      split at hnext
      · next hstart =>
        obtain ⟨rfl, rfl⟩ := Prod.mk.inj (Option.some.inj hnext)
        have hpart := isIdentPart_of_isIdentStart hstart
        obtain ⟨hslice, hbehind⟩ := h.takeWhile answersBeyond_isIdentPart
        rw [List.takeWhile_cons_of_pos hpart] at hslice
        rw [List.dropWhile_cons_of_pos hpart] at hbehind
        rw [if_pos hstart, tokenTo, hslice]
        exact ⟨_, rfl, hbehind⟩
      · next hstart =>
        rw [if_neg hstart]
        split at hnext
        · next hdigit =>
          obtain ⟨rfl, rfl⟩ := Prod.mk.inj (Option.some.inj hnext)
          have hpart : isNumberPart c := by simp [isNumberPart, Char.isAlphanum, hdigit]
          obtain ⟨-, hbehind⟩ := h.takeWhile answersBeyond_isNumberPart
          rw [List.dropWhile_cons_of_pos hpart] at hbehind
          rw [if_pos hdigit]
          exact ⟨_, rfl, hbehind⟩
        · next hdigit =>
          obtain ⟨rfl, rfl⟩ := Prod.mk.inj (Option.some.inj hnext)
          rw [if_neg hdigit]
          exact ⟨_, rfl, h.cons⟩

theorem RestAt.find_of_eq_none (h : RestAt bytes i (c :: t)) (hnext : next? (c :: t) = none) :
    find bytes i = .openComment := by
  obtain hnil | ⟨body, hbody, hopen⟩ := next?_eq_none_iff.1 hnext
  · cases hnil
  obtain ⟨rfl, rfl⟩ := List.cons.inj hbody
  have hbody : RestAt bytes (i + 2) body := h.cons.cons
  rw [h.find_at, if_neg (by decide), if_pos ⟨rfl, rfl⟩, hbody.slice?_size, hbody.findClose?_eq,
    untilClose?_eq_none_iff.2 hopen]
  rfl

end Tokens

/-! ## Reading all tokens -/

/-- The offset that reading goes on to behind what is found. -/
def Found.next? : Found → Option Nat
  | .gap next => some next
  | .token _ next => some next
  | .openComment => none
  | .badCut => none

/-- The offsets that reading comes to at the start of a round. -/
inductive IsHead (bytes : ByteArray) : Nat → Prop
  | zero : IsHead bytes 0
  | next {i next : Nat} (hi : IsHead bytes i) (hlt : i < bytes.size)
    (hnext : (find bytes i).next? = some next) : IsHead bytes next

section Rounds

variable {bytes : ByteArray} {i next rounds : Nat} {t : Text} {c : Char}

theorem RestAt.lt_of_append {lexeme rest : Text} (h : RestAt bytes i (lexeme ++ rest))
    (hne : lexeme ≠ []) (hrest : RestAt bytes next rest) : i < next := by
  have hpos := List.length_pos_iff.2 hne
  have hle := Text.length_le_size_toBytes lexeme
  have hi := h.add_size
  have hnext := hrest.add_size
  rw [Text.size_toBytes_append] at hi
  omega

/-- A round either finds nothing more, or goes on at a later offset. -/
theorem RestAt.find_cases (h : RestAt bytes i (c :: t)) :
    find bytes i = .openComment ∧ ofText (c :: t) = [] ∨
      ∃ next rest, i < next ∧ RestAt bytes next rest ∧
        (find bytes i = .gap next ∧ ofText (c :: t) = ofText rest ∨
          ∃ token, find bytes i = .token token next ∧ ofText (c :: t) = token :: ofText rest) := by
  cases hgap : isGap c with
  | true =>
    have hascii : c.toNat < 128 := by
      by_contra hbeyond
      rw [answersBeyond_isGap c (Nat.not_lt.1 hbeyond)] at hgap
      cases hgap
    have hrest := h.cons
    rw [Text.utf8Size_of_ascii hascii] at hrest
    refine .inr ⟨i + 1, t, Nat.lt_succ_self i, hrest, .inl ⟨?_, ofText_gap_cons hgap t⟩⟩
    rw [h.find_at, if_pos hgap]
  | false =>
    have hdrop : (c :: t).dropWhile isGap = c :: t := List.dropWhile_cons_of_neg (by simp [hgap])
    cases hnext : next? (c :: t) with
    | none => exact .inl ⟨h.find_of_eq_none hnext, ofText_of_next?_eq_none (hdrop.symm ▸ hnext)⟩
    | some found =>
      obtain ⟨token, rest⟩ := found
      obtain ⟨next, hfind, hrest⟩ := h.find_of_eq_some hgap hnext
      obtain ⟨lexeme, htext, hlexeme⟩ := (next?_eq_some_iff (Text.stopsAt_cons.2 hgap)).1 hnext
      refine .inr ⟨next, rest, ?_, hrest, .inr ⟨token, hfind, ?_⟩⟩
      · exact RestAt.lt_of_append (htext ▸ h) hlexeme.ne_nil hrest
      · exact ofText_of_next?_eq_some (hdrop.symm ▸ hnext)

/-- From an offset on there are the tokens of the text there, with a round for each byte left. -/
theorem RestAt.tokensFrom?_eq (h : RestAt bytes i t) (hrounds : bytes.size < rounds + i) :
    tokensFrom? bytes rounds i = some (ofText t) := by
  induction rounds generalizing i t with
  | zero =>
    have hsize := h.add_size
    omega
  | succ rounds ih =>
    rw [tokensFrom?]
    cases t with
    | nil =>
      rw [if_neg (by have hsize := h.eq_size; omega), ofText_eq_nil (.inl rfl)]
    | cons c t =>
      have hlt : i < bytes.size := h.lt_size (k := 0) c.utf8Size_pos
      rw [if_pos hlt]
      obtain ⟨hfind, htokens⟩ |
        ⟨next, rest, hlt, hrest, ⟨hfind, htokens⟩ | ⟨token, hfind, htokens⟩⟩ := h.find_cases
      · rw [hfind, htokens]
      · rw [hfind, htokens]
        exact ih hrest (by omega)
      · rw [hfind, htokens]
        dsimp only
        rw [ih hrest (by omega), Option.map_some]

theorem IsHead.exists_restAt (h : IsHead (toBytes t) i) : ∃ rest, RestAt (toBytes t) i rest := by
  induction h with
  | zero => exact ⟨t, restAt_zero t⟩
  | @next i next hi hlt hnext ih =>
    obtain ⟨u, hu⟩ := ih
    cases u with
    | nil => exact absurd hlt (by rw [hu.eq_size]; exact Nat.lt_irrefl _)
    | cons c u =>
      obtain ⟨hfind, -⟩ | ⟨next', rest, -, hrest, ⟨hfind, -⟩ | ⟨token, hfind, -⟩⟩ :=
        hu.find_cases <;> rw [hfind] at hnext <;> cases hnext <;> exact ⟨rest, hrest⟩

/-- Bytes that are UTF-8 are read to the end, and to the tokens of their text.  A round starts at a
boundary, cuts at boundaries only, and either goes on to a later offset or is the last one.  A
literal that is opened by a quote ends at a later boundary, although a backslash takes one byte
along, which need not be all of a character and need not be there. -/
theorem ofBytes?_eq_some_ofText (h : Text.ofBytes? bytes = some t) :
    (∀ i, IsHead bytes i → i ≤ bytes.size ∧ isBoundary bytes i ∧
      (i < bytes.size → find bytes i ≠ .badCut ∧
        ∀ next, (find bytes i).next? = some next → i < next)) ∧
    (∀ i quote, isQuote quote → has bytes i (· = quote) →
      let stop := afterQuote bytes quote (i + 1)
      i < stop ∧ stop ≤ bytes.size ∧ isBoundary bytes stop) ∧
    (∀ rounds, bytes.size < rounds → tokensFrom? bytes rounds 0 = some (ofText t)) ∧
    ofBytes? bytes = some (ofText t) := by
  obtain rfl := Text.toBytes_of_ofBytes? h
  have htokens (rounds : Nat) (hrounds : (toBytes t).size < rounds) :
      tokensFrom? (toBytes t) rounds 0 = some (ofText t) :=
    (restAt_zero t).tokensFrom?_eq hrounds
  refine ⟨fun i hi => ?_, fun i quote hquote hat => ?_, htokens, htokens _ (Nat.lt_succ_self _)⟩
  · obtain ⟨rest, hrest⟩ := hi.exists_restAt
    have hsize := hrest.add_size
    refine ⟨by omega, hrest.boundary, fun hlt => ?_⟩
    cases rest with
    | nil => exact absurd hlt (by rw [hrest.eq_size]; exact Nat.lt_irrefl _)
    | cons c rest =>
      obtain ⟨hfind, -⟩ | ⟨next, -, hlater, -, ⟨hfind, -⟩ | ⟨token, hfind, -⟩⟩ :=
        hrest.find_cases <;> rw [hfind]
      · exact ⟨nofun, nofun⟩
      · refine ⟨nofun, fun next' hnext => ?_⟩
        cases hnext
        exact hlater
      · refine ⟨nofun, fun next' hnext => ?_⟩
        cases hnext
        exact hlater
  · have hascii := toNat_lt_of_isQuote hquote
    have hlt : i < (toBytes t).size := by
      by_contra hi
      rw [has_of_size_le (Nat.not_lt.1 hi)] at hat
      cases hat
    obtain ⟨start, c, u, k, hrest, hk, rfl⟩ := exists_restAt hlt
    rw [hrest.has_eq (answersBeyond_eq hascii) hk, decide_eq_true_eq] at hat
    subst hat
    have hone := Text.utf8Size_of_ascii hascii
    obtain rfl : k = 0 := by omega
    rw [Nat.add_zero]
    have hbehind := hrest.cons
    rw [hone] at hbehind
    have hstop := restAt_afterQuote hbehind hquote
    have hsize := hstop.add_size
    obtain ⟨s, hs⟩ := afterQuote_suffix c u
    have hle : start + 1 ≤ afterQuote (toBytes t) c (start + 1) := by
      have hbefore := hbehind.add_size
      rw [← hs, Text.size_toBytes_append] at hbefore
      omega
    exact ⟨hle, by omega, hstop.boundary⟩

/-- A backslash in front of a letter of two bytes, and one at the end. -/
theorem ofBytes?_escapedLetter :
    let t : Text := ['"', '\\', 'é', '"', 'x', '"', '\\']
    let bytes := toBytes t
    Text.ofBytes? bytes = some t ∧ IsHead bytes 0 ∧ has bytes 0 (· = '"') ∧
      isBoundary bytes 3 = false ∧ isBoundary bytes (afterQuote bytes '"' 1) ∧
      afterQuote bytes '"' 1 = 5 ∧ afterQuote bytes '"' 7 = bytes.size ∧
      ofBytes? bytes = some [.literal, .ident ['x'], .literal] := by
  intro t bytes
  have ht : Text.ofBytes? bytes = some t := Text.ofBytes?_toBytes t
  have hat : has bytes 0 (· = '"') := by decide
  obtain ⟨-, hliteral, -, htokens⟩ := ofBytes?_eq_some_ofText ht
  refine ⟨ht, .zero, hat, by decide, (hliteral 0 '"' (by decide) hat).2.2,
    by decide +kernel, by decide +kernel, ?_⟩
  rw [htokens]
  decide +kernel

end Rounds

end Token.Offsets
end Optable
