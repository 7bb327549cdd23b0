import Breadboard.Dump

/-! Decimal dumps that are read back. A numeral without leading zeros is read as its number, whatever
bound the number is within; and numerals with line feeds behind them are the words of the dump, because
no digit is white space. -/

set_option autoImplicit false

namespace Breadboard

namespace Text

theorem le_ofDigitChars (cs : List Char) (value : Nat) : value ≤ Nat.ofDigitChars 10 cs value := by
  induction cs generalizing value with
  | nil => exact Nat.le_refl value
  | cons c cs ih =>
    rw [Nat.ofDigitChars_cons]
    have hnext := ih (10 * value + (c.toNat - '0'.toNat))
    omega

/-- Reading digits one by one runs over a bound exactly if the whole number is above it, as no part of a
number is larger than the whole. -/
theorem extendNumeral_of_isDigit {bound value : Nat} {cs : List Char} (hvalue : value ≤ bound)
    (hdigits : ∀ c ∈ cs, c.isDigit = true) : extendNumeral bound value cs =
      if Nat.ofDigitChars 10 cs value ≤ bound then .ok (Nat.ofDigitChars 10 cs value)
      else .error .overflow := by
  induction cs generalizing value with
  | nil => exact (if_pos hvalue).symm
  | cons c cs ih =>
    rw [List.forall_mem_cons] at hdigits
    rw [extendNumeral, if_pos hdigits.1, Nat.ofDigitChars_cons]
    by_cases hnext : 10 * value + (c.toNat - '0'.toNat) ≤ bound
    · simp only [hnext, ↓reduceIte]
      exact ih hnext hdigits.2
    · have hle := le_ofDigitChars cs (10 * value + (c.toNat - '0'.toNat))
      simp only [hnext, ↓reduceIte]
      rw [if_neg (by omega)]

theorem dropPlus_of_isDigit {cs : List Char} (hdigits : ∀ c ∈ cs, c.isDigit = true) :
    dropPlus cs = cs := by
  unfold dropPlus
  split
  · next c cs =>
    cases hdigits '+' List.mem_cons_self
  · rfl

theorem readNumeral_of_isDigit {bound : Nat} {cs : List Char} (hne : cs ≠ [])
    (hdigits : ∀ c ∈ cs, c.isDigit = true) : readNumeral bound cs =
      if Nat.ofDigitChars 10 cs 0 ≤ bound then .ok (Nat.ofDigitChars 10 cs 0)
      else .error .overflow := by
  unfold readNumeral
  rw [dropPlus_of_isDigit hdigits, extendNumeral_of_isDigit (Nat.zero_le bound) hdigits,
    if_neg (by simpa using hne)]

theorem isDigit_of_mem_decimal {n : Nat} {c : Char} (h : c ∈ (decimal n).toList) :
    c.isDigit = true := by
  rw [decimal, String.toList_ofList] at h
  exact Nat.isDigit_of_mem_toDigits (by decide) (by decide) h

theorem notMem_decimal {n : Nat} {c : Char} (h : c.isDigit = false) : c ∉ (decimal n).toList := by
  intro hc
  rw [isDigit_of_mem_decimal hc] at h
  cases h

theorem toList_decimal_ne_nil (n : Nat) : (decimal n).toList ≠ [] := by
  rw [decimal, String.toList_ofList]
  exact Nat.toDigits_ne_nil

theorem readNumeral_decimal {bound n : Nat} (h : n ≤ bound) :
    readNumeral bound (decimal n).toList = .ok n := by
  have hvalue : Nat.ofDigitChars 10 (decimal n).toList 0 = n := by
    rw [decimal, String.toList_ofList]
    exact Nat.ofDigitChars_ten_toDigits
  have hdigits : ∀ c ∈ (decimal n).toList, c.isDigit = true := fun _ => isDigit_of_mem_decimal
  rw [readNumeral_of_isDigit (toList_decimal_ne_nil n) hdigits, hvalue, if_pos h]

theorem isBlank_of_isAlphanum {c : Char} (h : c.isAlphanum = true) : isBlank c = false := by
  have hrange : 48 ≤ c.toNat ∧ c.toNat ≤ 122 := by
    have hbetween {a b : Nat} (h : a ≤ c.toNat ∧ c.toNat ≤ b) (ha : 48 ≤ a) (hb : b ≤ 122) :
        48 ≤ c.toNat ∧ c.toNat ≤ 122 := ⟨Nat.le_trans ha h.1, Nat.le_trans h.2 hb⟩
    rcases Bool.or_eq_true_iff.mp h with hletter | hdigit
    · rcases Bool.or_eq_true_iff.mp hletter with hupper | hlower
      · have hupper : 65 ≤ c.toNat ∧ c.toNat ≤ 90 := of_decide_eq_true hupper
        exact hbetween hupper (by decide) (by decide)
      · obtain ⟨hlow, hhigh⟩ := Bool.and_eq_true_iff.mp hlower
        have hlow : 97 ≤ c.toNat := of_decide_eq_true hlow
        have hhigh : c.toNat ≤ 122 := of_decide_eq_true hhigh
        exact hbetween ⟨hlow, hhigh⟩ (by decide) (by decide)
    · exact hbetween (Char.isDigit_iff_toNat.mp hdigit) (by decide) (by decide)
  simp only [isBlank, blankRanges, List.any_cons, List.any_nil, Bool.or_false, Bool.or_eq_false_iff,
    Bool.and_eq_false_iff, decide_eq_false_iff_not]
  omega

theorem words_append {w : List Char} (hne : w ≠ []) (hw : ∀ c ∈ w, isBlank c = false) {b : Char}
    (hb : isBlank b = true) (rest : List Char) : words (w ++ b :: rest) = w :: words rest := by
  induction w with
  | nil => exact absurd rfl hne
  | cons c w ih =>
    rw [List.forall_mem_cons] at hw
    rw [List.cons_append, words, if_neg (by simp [hw.1])]
    cases w with
    | nil => simp [hb, words]
    | cons d w =>
      have hd := hw.2 d List.mem_cons_self
      rw [if_neg (by simp [hd]), ih (by simp) hw.2]

end Text

namespace Dump

theorem decimal_cons (b : UInt8) (bytes : List UInt8) :
    decimal (b :: bytes) = Text.decimal b.toNat ++ "\n" ++ decimal bytes := by
  simp [decimal]

theorem words_decimal (bytes : List UInt8) : Text.words (decimal bytes).toList =
    bytes.map fun b => (Text.decimal b.toNat).toList := by
  induction bytes with
  | nil => rfl
  | cons b bytes ih =>
    have hdigits : ∀ c ∈ (Text.decimal b.toNat).toList, Text.isBlank c = false := by
      intro c hc
      apply Text.isBlank_of_isAlphanum
      simp [Char.isAlphanum, Text.isDigit_of_mem_decimal hc]
    rw [decimal_cons, String.toList_append, String.toList_append, List.append_assoc]
    simp only [String.reduceToList, List.cons_append, List.nil_append]
    rw [Text.words_append (Text.toList_decimal_ne_nil _) hdigits (by decide), ih, List.map_cons]

theorem readWords_decimal (position : Nat) (bytes : List UInt8) :
    readWords position (bytes.map fun b => (Text.decimal b.toNat).toList) = .ok bytes := by
  induction bytes generalizing position with
  | nil => rfl
  | cons b bytes ih =>
    have hbyte : b.toNat ≤ 255 := Nat.le_of_lt_succ b.toNat_lt
    unfold readWords
    simp only [List.map_cons, Text.readNumeral_decimal hbyte, ih, UInt8.ofNat_toNat]
    rfl

theorem read_decimal (bytes : List UInt8) : read (decimal bytes) = .ok bytes := by
  unfold read
  rw [words_decimal, readWords_decimal]

end Dump

end Breadboard
