import Mathlib.Data.List.Induction
import Mathlib.Data.Nat.Digits.Defs
import Breadboard.Proofs.DumpReading
import Breadboard.Proofs.OperandText

/-! The grammar of operands. An operand is a register, a label behind a number sign or a run of digits,
and a pair of brackets around it takes it as an address. Only the outermost characters of a token count
as brackets: what stands between them is looked at no further, so a name can hold brackets of its own.

Which operands are read back from their texts follows from the grammar. The brackets of an address keep
its name apart from the end of the token, and without them a name must not end like one. -/

set_option autoImplicit false

namespace Breadboard

namespace Text

/-- The number that decimal digits spell, where the last digit counts ones. -/
def decimalValue (digits : List Char) : Nat :=
  Nat.ofDigits 10 (digits.reverse.map fun c => c.toNat - '0'.toNat)

theorem ofDigitChars_eq_decimalValue (digits : List Char) :
    Nat.ofDigitChars 10 digits 0 = decimalValue digits := by
  induction digits using List.reverseRecOn with
  | nil => rfl
  | append_singleton digits c ih =>
    rw [Nat.ofDigitChars_append, ih, Nat.ofDigitChars_cons, Nat.ofDigitChars_nil, decimalValue,
      decimalValue, List.reverse_append, List.reverse_singleton, List.singleton_append,
      List.map_cons, Nat.ofDigits_cons]
    exact Nat.add_comm _ _

end Text

namespace Operand

/-- A token with or without brackets around it, and what is left without them. -/
inductive Brackets : String → String → Bool → Prop
  | direct {token : String} (hopen : token.toList.head? ≠ some '[')
      (hclose : token.toList.getLast? ≠ some ']') : Brackets token token false
  | indirect {inner : String} : Brackets ("[" ++ inner ++ "]") inner true

inductive SpellsAtom : String → Atom → Prop
  | register {text : String} {r : Register}
      (h : (text, r) ∈ [("A", Register.a), ("B", .b), ("ALO", .alo), ("OUT", .out)]) :
      SpellsAtom text (.register r)
  | label {name : String} (hne : name ≠ "") : SpellsAtom ("#" ++ name) (.immediate (.label name))
  | literal {digits : String} {v : UInt8} (hne : digits ≠ "")
      (hdigits : ∀ c ∈ digits.toList, c.isDigit = true)
      (hvalue : Text.decimalValue digits.toList = v.toNat) :
      SpellsAtom digits (.immediate (.literal v))

/-- The grammar: a token that makes up an operand. -/
def Spells (token : String) (o : Operand) : Prop :=
  ∃ inner, Brackets token inner o.indirect ∧ SpellsAtom inner o.atom

structure Excessive (text : String) : Prop where
  digits : ∀ c ∈ text.toList, c.isDigit = true
  value : 255 < Text.decimalValue text.toList

/-- A token that makes up no operand, and why. -/
inductive Fails : String → ParseError → Prop
  | unclosed {token : String} (hopen : token.toList.head? = some '[')
      (hclose : token.toList.getLast? ≠ some ']') : Fails token (.unclosedBracket token)
  | unopened {token : String} (hopen : token.toList.head? ≠ some '[')
      (hclose : token.toList.getLast? = some ']') : Fails token (.unopenedBracket token)
  | empty {token : String} {indirect : Bool} (htoken : Brackets token "" indirect) :
      Fails token .emptyOperand
  | nameless {token : String} {indirect : Bool} (htoken : Brackets token "#" indirect) :
      Fails token (.emptyLabelReference token)
  | excessive {token inner : String} {indirect : Bool} (htoken : Brackets token inner indirect)
      (hinner : Excessive inner) : Fails token (.literalOutOfRange inner)
  | invalid {token inner : String} {indirect : Bool} (htoken : Brackets token inner indirect)
      (hempty : inner ≠ "") (hnameless : inner ≠ "#") (hexcessive : ¬ Excessive inner)
      (hatom : ∀ atom, ¬ SpellsAtom inner atom) : Fails token (.invalidLiteral inner)

/-! ### What is read from the tokens of the grammar -/

theorem unbracket_of_brackets {token inner : String} {indirect : Bool}
    (h : Brackets token inner indirect) : unbracket token.toList = .ok (inner.toList, indirect) := by
  cases h with
  | direct hopen hclose => exact unbracket_of_ne hopen hclose
  | indirect =>
    have htoken : ("[" ++ inner ++ "]").toList = '[' :: inner.toList ++ [']'] := by simp
    rw [htoken, unbracket_brackets]

theorem parse_of_brackets {token inner : String} {indirect : Bool}
    (h : Brackets token inner indirect) :
    parse token = (readAtom token inner.toList).map fun atom => ⟨atom, indirect⟩ := by
  unfold parse
  rw [unbracket_of_brackets h]

section Digits
variable {text : String} (hne : text ≠ "") (hdigits : ∀ c ∈ text.toList, c.isDigit = true)
include hne hdigits

theorem readLiteral_of_digits : readLiteral text.toList =
    if Text.decimalValue text.toList < 256 then .ok (UInt8.ofNat (Text.decimalValue text.toList))
    else .error (.literalOutOfRange text) := by
  have hempty : text.toList.isEmpty = false := by simpa using hne
  have hall : text.toList.all Char.isDigit = true := List.all_eq_true.mpr hdigits
  simp [readLiteral, Text.ofDecimal?, hempty, hall, Text.ofDigitChars_eq_decimalValue]

/-- A literal is read as a numeral within the bound of a byte is. -/
theorem readLiteral_eq_readNumeral : readLiteral text.toList =
    ((Text.readNumeral 255 text.toList).map UInt8.ofNat).mapError
      fun _ => .literalOutOfRange text := by
  have hlist : text.toList ≠ [] := mt String.toList_eq_nil_iff.mp hne
  rw [readLiteral_of_digits hne hdigits, Text.readNumeral_of_isDigit hlist hdigits,
    Text.ofDigitChars_eq_decimalValue]
  by_cases hvalue : Text.decimalValue text.toList < 256
  · rw [if_pos hvalue, if_pos (Nat.le_of_lt_succ hvalue)]
    rfl
  · rw [if_neg hvalue, if_neg (mt Nat.lt_succ_of_le hvalue)]
    rfl

theorem readAtom_of_digits (token : String) : readAtom token text.toList =
    (readLiteral text.toList).map fun v => .immediate (.literal v) := by
  obtain ⟨c, cs, hcs⟩ := List.exists_cons_of_ne_nil (mt String.toList_eq_nil_iff.mp hne)
  have hc : c.isDigit = true := hdigits c (by simp [hcs])
  rw [hcs]
  exact readAtom_of_digit hc token cs

end Digits

theorem Excessive.ne_empty {text : String} (h : Excessive text) : text ≠ "" := by
  rintro rfl
  cases h.value

theorem readAtom_of_spells (token : String) {inner : String} {atom : Atom}
    (h : SpellsAtom inner atom) : readAtom token inner.toList = .ok atom := by
  cases h with
  | register h =>
    simp only [List.mem_cons, List.not_mem_nil, or_false, Prod.mk.injEq] at h
    rcases h with ⟨rfl, rfl⟩ | ⟨rfl, rfl⟩ | ⟨rfl, rfl⟩ | ⟨rfl, rfl⟩ <;> rfl
  | @label name hne =>
    have hinner : ("#" ++ name).toList = '#' :: name.toList := by simp
    obtain ⟨c, cs, hcs⟩ := List.exists_cons_of_ne_nil (mt String.toList_eq_nil_iff.mp hne)
    have hname : String.ofList (c :: cs) = name := by rw [← hcs, String.ofList_toList]
    rw [hinner, hcs, readAtom, hname]
    simp
  | @literal _ v hne hdigits hvalue =>
    rw [readAtom_of_digits hne hdigits, readLiteral_of_digits hne hdigits, hvalue,
      if_pos v.toNat_lt, UInt8.ofNat_toNat]
    rfl

theorem SpellsAtom.of_ofName? {text : String} {r : Register} (h : Register.ofName? text = some r) :
    SpellsAtom text (.register r) := by
  obtain ⟨hpc, rfl⟩ := Register.ofName?_eq_some_iff.mp h
  apply SpellsAtom.register
  cases r with
  | pc => exact absurd rfl hpc
  | a | b | alo | out => decide

theorem exists_literal_or_excessive {text : String} (hne : text ≠ "")
    (hdigits : ∀ c ∈ text.toList, c.isDigit = true) :
    (∃ v, SpellsAtom text (.immediate (.literal v))) ∨ Excessive text := by
  rcases Nat.lt_or_ge (Text.decimalValue text.toList) 256 with hvalue | hvalue
  · exact .inl ⟨_, .literal hne hdigits (UInt8.toNat_ofNat_of_lt' hvalue).symm⟩
  · exact .inr ⟨hdigits, hvalue⟩

theorem readAtom_of_invalid (token : String) {inner : String} (hempty : inner ≠ "")
    (hnameless : inner ≠ "#") (hexcessive : ¬ Excessive inner)
    (hatom : ∀ atom, ¬ SpellsAtom inner atom) :
    readAtom token inner.toList = .error (.invalidLiteral inner) := by
  have hregister : Register.ofName? inner = none := by
    by_contra h
    obtain ⟨r, hr⟩ := Option.ne_none_iff_exists'.mp h
    exact hatom (.register r) (.of_ofName? hr)
  have hdigits : ¬ ∀ c ∈ inner.toList, c.isDigit = true := by
    intro hdigits
    rcases exists_literal_or_excessive hempty hdigits with ⟨v, hv⟩ | h
    · exact hatom _ hv
    · exact hexcessive h
  have hliteral : readLiteral inner.toList = .error (.invalidLiteral inner) := by
    have hall : inner.toList.all Char.isDigit = false := by simpa using hdigits
    simp [readLiteral, Text.ofDecimal?, hall]
  have hinner : String.ofList inner.toList = inner := String.ofList_toList
  unfold readAtom
  split
  · next hnil =>
    exact absurd (String.toList_eq_nil_iff.mp hnil) hempty
  · next hsharp =>
    rw [hsharp] at hinner
    exact absurd hinner.symm hnameless
  · next name hne hname =>
    -- What follows a number sign is a name, unless nothing follows it.
    have hlabel : SpellsAtom ("#" ++ String.ofList name) (.immediate (.label (String.ofList name))) :=
      .label (by simpa using hne)
    have hspell : inner = "#" ++ String.ofList name := by
      rw [← String.toList_inj]
      simp [hname]
    rw [← hspell] at hlabel
    exact absurd hlabel (hatom _)
  · rw [hinner, hregister]
    simp [hliteral, Except.map]

theorem parse_of_spells {token : String} {o : Operand} (h : Spells token o) :
    parse token = .ok o := by
  obtain ⟨inner, htoken, hinner⟩ := h
  rw [parse_of_brackets htoken, readAtom_of_spells token hinner]
  rfl

theorem parse_of_fails {token : String} {e : ParseError} (h : Fails token e) :
    parse token = .error e := by
  cases h with
  | unclosed hopen hclose =>
    have hclose : (token.toList.getLast? == some ']') = false := by simpa using hclose
    unfold parse unbracket
    rw [hopen, hclose, String.ofList_toList]
    rfl
  | unopened hopen hclose =>
    have hopen : (token.toList.head? == some '[') = false := by simpa using hopen
    unfold parse unbracket
    rw [hopen, hclose, String.ofList_toList]
    rfl
  | empty htoken =>
    rw [parse_of_brackets htoken]
    rfl
  | nameless htoken =>
    rw [parse_of_brackets htoken]
    rfl
  | excessive htoken hinner =>
    have hlarge : ¬ Text.decimalValue _ < 256 := Nat.not_lt.mpr hinner.value
    rw [parse_of_brackets htoken, readAtom_of_digits hinner.ne_empty hinner.digits,
      readLiteral_of_digits hinner.ne_empty hinner.digits, if_neg hlarge]
    rfl
  | invalid htoken hempty hnameless hexcessive hatom =>
    rw [parse_of_brackets htoken, readAtom_of_invalid token hempty hnameless hexcessive hatom]
    rfl

/-! ### Every token is in the grammar or has a fault -/

theorem exists_brackets_or_fails (token : String) :
    (∃ inner indirect, Brackets token inner indirect) ∨ ∃ e, Fails token e := by
  by_cases hopen : token.toList.head? = some '['
  · by_cases hclose : token.toList.getLast? = some ']'
    · left
      obtain ⟨front, hfront⟩ := List.getLast?_eq_some_iff.mp hclose
      cases front with
      | nil => simp [hfront] at hopen
      | cons c front =>
        obtain rfl : c = '[' := by simpa [hfront] using hopen
        have htoken : token = "[" ++ String.ofList front ++ "]" := by
          rw [← String.toList_inj]
          simp [hfront]
        rw [htoken]
        exact ⟨_, true, .indirect⟩
    · exact .inr ⟨_, .unclosed hopen hclose⟩
  · by_cases hclose : token.toList.getLast? = some ']'
    · exact .inr ⟨_, .unopened hopen hclose⟩
    · exact .inl ⟨token, false, .direct hopen hclose⟩

theorem spells_or_fails (token : String) : (∃ o, Spells token o) ∨ ∃ e, Fails token e := by
  rcases exists_brackets_or_fails token with ⟨inner, indirect, htoken⟩ | hfails
  · by_cases hatom : ∃ atom, SpellsAtom inner atom
    · obtain ⟨atom, hatom⟩ := hatom
      exact .inl ⟨⟨atom, indirect⟩, inner, htoken, hatom⟩
    right
    by_cases hempty : inner = ""
    · subst hempty
      exact ⟨_, .empty htoken⟩
    by_cases hnameless : inner = "#"
    · subst hnameless
      exact ⟨_, .nameless htoken⟩
    by_cases hexcessive : Excessive inner
    · exact ⟨_, .excessive htoken hexcessive⟩
    · exact ⟨_, .invalid htoken hempty hnameless hexcessive (not_exists.mp hatom)⟩
  · exact .inr hfails

theorem parse_eq_ok_iff {token : String} {o : Operand} : parse token = .ok o ↔ Spells token o :=
  Except.eq_ok_iff_of_total (fun _ => parse_of_spells) (fun _ => parse_of_fails)
    (spells_or_fails token)

theorem parse_eq_error_iff {token : String} {e : ParseError} :
    parse token = .error e ↔ Fails token e :=
  Except.eq_error_iff_of_total (fun _ => parse_of_spells) (fun _ => parse_of_fails)
    (spells_or_fails token)

/-- Reading an operand accepts exactly the tokens of the grammar, as what they spell there, and answers
every other token with its fault. -/
theorem parse_eq_iff_spells (token : String) :
    (∀ o, parse token = .ok o ↔ Spells token o) ∧ ∀ e, parse token = .error e ↔ Fails token e :=
  ⟨fun _ => parse_eq_ok_iff, fun _ => parse_eq_error_iff⟩

/-! ### Operands that are read back -/

theorem canonical_of_spells {token : String} {o : Operand} (h : Spells token o) : o.Canonical := by
  obtain ⟨atom, indirect⟩ := o
  obtain ⟨inner, htoken, hinner⟩ := h
  cases hinner with
  | @register _ r h =>
    show r ≠ .pc
    rintro rfl
    simp at h
  | literal => trivial
  | @label name hne =>
    refine ⟨hne, ?_⟩
    cases htoken with
    | indirect => exact .inl rfl
    | direct _ hclose =>
      right
      obtain ⟨c, cs, hcs⟩ := List.exists_cons_of_ne_nil (mt String.toList_eq_nil_iff.mp hne)
      simpa [hcs] using hclose

theorem canonical_iff (o : Operand) : o.Canonical ↔ o.atom ≠ .register .pc ∧
    ∀ name, o.atom = .immediate (.label name) →
      name ≠ "" ∧ (o.indirect = true ∨ name.toList.getLast? ≠ some ']') := by
  obtain ⟨atom, indirect⟩ := o
  rcases atom with r | v | name <;> simp [Canonical]

/-- An operand is read back from its text unless it is the program counter, a label without a name, or a
label without brackets whose name ends like one. Every operand that is read from some token is read
back. -/
theorem parse_render_iff_ends (o : Operand) :
    (parse o.render = .ok o ↔ o.atom ≠ .register .pc ∧
      ∀ name, o.atom = .immediate (.label name) →
        name ≠ "" ∧ (o.indirect = true ∨ name.toList.getLast? ≠ some ']')) ∧
    ∀ token, parse token = .ok o → parse o.render = .ok o := by
  have hcanonical {token : String} (h : parse token = .ok o) : o.Canonical :=
    canonical_of_spells (parse_eq_ok_iff.mp h)
  rw [← canonical_iff]
  exact ⟨⟨hcanonical, parse_render⟩, fun token h => parse_render (hcanonical h)⟩

/-- A name that ends like a bracket, in brackets. -/
theorem parse_render_iff_ends_bracket : parse "[#x]]" = .ok ⟨.immediate (.label "x]"), true⟩ ∧
    parse (render ⟨.immediate (.label "x]"), true⟩) = .ok ⟨.immediate (.label "x]"), true⟩ := by
  have hparse : parse "[#x]]" = .ok ⟨.immediate (.label "x]"), true⟩ := by decide
  exact ⟨hparse, (parse_render_iff_ends _).2 _ hparse⟩

end Operand

end Breadboard
