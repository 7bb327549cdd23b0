import Breadboard.Proofs.Except
import Breadboard.Source.Operand

/-! The text of operands. An operand that can be written is read back from its text: digits start
neither a register nor a label, and what stands inside brackets is read as if they were not there.
What is read is never the program counter, which has no name. -/

set_option autoImplicit false

namespace Breadboard

namespace Text

theorem isAlphanum_of_mem_toDigits {n : Nat} {c : Char} (h : c ∈ Nat.toDigits 16 n) :
    c.isAlphanum = true := by
  have hdigit : ∀ d < 16, (Nat.digitChar d).isAlphanum = true := by decide
  induction n using Nat.strongRecOn with
  | ind n ih =>
    rw [Nat.toDigits_eq_if (by decide)] at h
    split at h
    · next hn => rw [List.mem_singleton.mp h, hdigit n hn]
    · next hn =>
      rcases List.mem_append.mp h with h | h
      · exact ih (n / 16) (Nat.div_lt_self (by omega) (by decide)) h
      · rw [List.mem_singleton.mp h, hdigit _ (Nat.mod_lt n (by decide))]

theorem isAlphanum_of_mem_hex {width n : Nat} {c : Char} (h : c ∈ (hex width n).toList) :
    c.isAlphanum = true := by
  rw [hex, String.toList_ofList, List.leftpad, List.mem_append, List.mem_replicate] at h
  rcases h with ⟨_, rfl⟩ | h
  · decide
  · exact isAlphanum_of_mem_toDigits h

theorem notMem_hex {width n : Nat} {c : Char} (h : c.isAlphanum = false) :
    c ∉ (hex width n).toList := by
  intro hc
  rw [isAlphanum_of_mem_hex hc] at h
  cases h

theorem toList_address (n : Nat) : (address n).toList = '0' :: 'x' :: (hex 2 n).toList := by
  simp [address]

theorem isAlphanum_of_mem_address {n : Nat} {c : Char} (h : c ∈ (address n).toList) :
    c.isAlphanum = true := by
  rw [toList_address] at h
  rcases List.mem_cons.mp h with rfl | h
  · decide
  rcases List.mem_cons.mp h with rfl | h
  · decide
  · exact isAlphanum_of_mem_hex h

theorem notMem_address {n : Nat} {c : Char} (h : c.isAlphanum = false) :
    c ∉ (address n).toList := by
  intro hc
  rw [isAlphanum_of_mem_address hc] at h
  cases h

end Text

namespace Operand

/-- No operand of a source text is the program counter. -/
def Named (o : Operand) : Prop := o.atom ≠ .register .pc

/-- An operand that is read back from its text. The name of a label that is not in brackets must not
end like a bracket. -/
def Canonical (o : Operand) : Prop :=
  match o.atom with
  | .register r => r ≠ .pc
  | .immediate (.literal _) => True
  | .immediate (.label name) => name ≠ "" ∧ (o.indirect = true ∨ name.toList.getLast? ≠ some ']')

theorem unbracket_brackets (inner : List Char) :
    unbracket ('[' :: inner ++ [']']) = .ok (inner, true) := by
  have hlast : ('[' :: inner ++ [']']).getLast? = some ']' := List.getLast?_concat
  unfold unbracket
  rw [hlast]
  simp

theorem unbracket_of_ne {token : List Char} (hhead : token.head? ≠ some '[')
    (hlast : token.getLast? ≠ some ']') : unbracket token = .ok (token, false) := by
  have hhead : (token.head? == some '[') = false := by simpa using hhead
  have hlast : (token.getLast? == some ']') = false := by simpa using hlast
  unfold unbracket
  rw [hhead, hlast]

theorem readAtom_of_digit {c : Char} (hc : c.isDigit = true) (token : String) (cs : List Char) :
    readAtom token (c :: cs) = (readLiteral (c :: cs)).map fun v => .immediate (.literal v) := by
  have hname : Register.ofName? (String.ofList (c :: cs)) = none := by
    by_contra h
    obtain ⟨r, hr⟩ := Option.ne_none_iff_exists'.mp h
    have htext := congrArg String.toList (Register.ofName?_eq_some_iff.mp hr).2
    rw [String.toList_ofList] at htext
    cases r <;> cases htext <;> cases hc
  have hsharp : c ≠ '#' := by
    rintro rfl
    cases hc
  unfold readAtom
  split
  · next h => cases h
  · next h => cases h; exact absurd rfl hsharp
  · next h => cases h; exact absurd rfl hsharp
  · rw [hname]

theorem readLiteral_decimal (v : UInt8) : readLiteral (Nat.toDigits 10 v.toNat) = .ok v := by
  have hdigits : (Nat.toDigits 10 v.toNat).all Char.isDigit = true :=
    List.all_eq_true.mpr fun c hc => Nat.isDigit_of_mem_toDigits (by decide) (by decide) hc
  have hempty : (Nat.toDigits 10 v.toNat).isEmpty = false := by simp [Nat.toDigits_ne_nil]
  have hread : Text.ofDecimal? (Nat.toDigits 10 v.toNat) = some v.toNat := by
    simp [Text.ofDecimal?, hdigits, hempty, Nat.ofDigitChars_ten_toDigits]
  unfold readLiteral
  rw [hread]
  simp [v.toNat_lt]

theorem readAtom_render {o : Operand} (h : o.Canonical) (token : String) :
    readAtom token o.atom.render.toList = .ok o.atom := by
  obtain ⟨atom, indirect⟩ := o
  rcases atom with register | value | name
  · have hname : Register.ofName? register.name = some register :=
      Register.ofName?_eq_some_iff.mpr ⟨h, rfl⟩
    cases register <;> simp_all [Atom.render, readAtom, Register.name]
  · obtain ⟨c, cs, hcs⟩ :=
      List.exists_cons_of_ne_nil (Nat.toDigits_ne_nil (n := value.toNat) (b := 10))
    have hc : c.isDigit = true := Nat.isDigit_of_mem_toDigits (b := 10) (n := value.toNat)
      (by decide) (by decide) (by simp [hcs])
    have hread := readLiteral_decimal value
    rw [hcs] at hread
    simp [Atom.render, Immediate.render, Text.decimal, hcs, readAtom_of_digit hc, hread, Except.map]
  · obtain ⟨c, cs, hcs⟩ := List.exists_cons_of_ne_nil (mt String.toList_eq_nil_iff.mp h.1)
    have hname : String.ofList (c :: cs) = name := by rw [← hcs, String.ofList_toList]
    simp [Atom.render, Immediate.render, hcs, readAtom, hname]

theorem render_direct (atom : Atom) : render ⟨atom, false⟩ = atom.render := rfl

theorem ends_render {atom : Atom} (h : Canonical ⟨atom, false⟩) :
    atom.render.toList.head? ≠ some '[' ∧ atom.render.toList.getLast? ≠ some ']' := by
  rcases atom with register | value | name
  · cases register <;> decide
  · have hdigit (c : Char) (hc : c ∈ Nat.toDigits 10 value.toNat) : c.isDigit = true :=
      Nat.isDigit_of_mem_toDigits (by decide) (by decide) hc
    simp only [Atom.render, Immediate.render, Text.decimal, String.toList_ofList]
    refine ⟨fun hhead => ?_, fun hlast => ?_⟩
    · cases hdigit _ (List.mem_of_mem_head? hhead)
    · cases hdigit _ (List.mem_of_getLast? hlast)
  · have hlast := h.2.resolve_left (by simp)
    obtain ⟨c, cs, hcs⟩ := List.exists_cons_of_ne_nil (mt String.toList_eq_nil_iff.mp h.1)
    rw [hcs] at hlast
    simpa [Atom.render, Immediate.render, hcs] using hlast

theorem parse_render {o : Operand} (h : o.Canonical) : parse o.render = .ok o := by
  have hread := readAtom_render h o.render
  obtain ⟨atom, indirect⟩ := o
  cases indirect with
  | true =>
    have htoken : (render ⟨atom, true⟩).toList = '[' :: atom.render.toList ++ [']'] := by
      simp [render]
    unfold parse
    rw [htoken, unbracket_brackets]
    simp only [hread]
    rfl
  | false =>
    obtain ⟨hhead, hlast⟩ := ends_render h
    unfold parse
    rw [render_direct, unbracket_of_ne hhead hlast]
    simp only [render_direct] at hread
    simp only [hread]
    rfl

theorem exists_inner_of_parse {token : String} {o : Operand} (h : parse token = .ok o) :
    ∃ inner, readAtom token inner = .ok o.atom ∧
      (o.indirect = true ∧ token.toList = '[' :: inner ++ [']'] ∨
        o.indirect = false ∧ token.toList = inner ∧ inner.head? ≠ some '[') := by
  unfold parse at h
  split at h
  · cases h
  next inner indirect hinner =>
  obtain ⟨atom, hatom, rfl⟩ := Except.map_eq_ok_iff.mp h
  refine ⟨inner, hatom, ?_⟩
  unfold unbracket at hinner
  split at hinner
  · next hhead hlast =>
    cases hinner
    obtain ⟨front, hfront⟩ := List.getLast?_eq_some_iff.mp (by simpa using hlast)
    left
    cases front with
    | nil => simp [hfront] at hhead
    | cons c front => simp_all
  · cases hinner
  · cases hinner
  · next hhead _ =>
    cases hinner
    exact .inr ⟨rfl, rfl, by simpa using hhead⟩

theorem eq_of_readAtom_label {token : String} {inner : List Char} {name : String}
    (h : readAtom token inner = .ok (.immediate (.label name))) : inner = '#' :: name.toList := by
  unfold readAtom at h
  split at h
  · cases h
  · cases h
  · cases h
    rw [String.toList_ofList]
  · split at h
    · cases h
    · obtain ⟨v, _, hv⟩ := Except.map_eq_ok_iff.mp h
      cases hv

theorem eq_label_of_readAtom {token name : String} {atom : Atom}
    (h : readAtom token ('#' :: name.toList) = .ok atom) : atom = .immediate (.label name) := by
  cases hname : name.toList with
  | nil =>
    rw [hname] at h
    cases h
  | cons c cs =>
    have hread : readAtom token ('#' :: name.toList) =
        .ok (.immediate (.label (String.ofList name.toList))) := by rw [hname]; rfl
    rw [hread, String.ofList_toList] at h
    cases h
    rfl

theorem toList_render_label (name : String) (indirect : Bool) :
    (render ⟨.immediate (.label name), indirect⟩).toList =
      if indirect then '[' :: ('#' :: name.toList) ++ [']'] else '#' :: name.toList := by
  cases indirect <;> simp [render, Atom.render, Immediate.render]

theorem named_of_parse {token : String} {o : Operand} (h : parse token = .ok o) : o.Named := by
  obtain ⟨inner, hatom, _⟩ := exists_inner_of_parse h
  obtain ⟨atom, indirect⟩ := o
  unfold readAtom at hatom
  split at hatom
  · cases hatom
  · cases hatom
  · cases hatom
    simp [Named]
  · split at hatom
    · next r hr =>
      cases hatom
      simpa [Named] using (Register.ofName?_eq_some_iff.mp hr).1
    · obtain ⟨v, _, hv⟩ := Except.map_eq_ok_iff.mp hatom
      cases hv
      simp [Named]

theorem isAlphanum_of_readLiteral {text : List Char} {v : UInt8} (h : readLiteral text = .ok v) :
    ∀ c ∈ text, c.isAlphanum = true := by
  intro c hc
  have hdigits : text.all Char.isDigit = true := by
    by_contra hall
    simp [readLiteral, Text.ofDecimal?, hall] at h
  simp [Char.isAlphanum, List.all_eq_true.mp hdigits c hc]

theorem mem_of_readAtom {token : String} {inner : List Char} {atom : Atom}
    (h : readAtom token inner = .ok atom) {c : Char} (hc : c ∈ inner) :
    c = '#' ∨ c.isAlphanum = true ∨ ∃ name, atom = .immediate (.label name) ∧ c ∈ name.toList := by
  unfold readAtom at h
  split at h
  · cases h
  · cases h
  · cases h
    exact (List.mem_cons.mp hc).imp_right fun hc => .inr ⟨_, rfl, by rwa [String.toList_ofList]⟩
  · refine .inr (.inl ?_)
    split at h
    · next r hr =>
      have htext := congrArg String.toList (Register.ofName?_eq_some_iff.mp hr).2
      rw [String.toList_ofList] at htext
      rw [htext] at hc
      have hall : r.name.toList.all Char.isAlphanum = true := by cases r <;> decide
      exact List.all_eq_true.mp hall c hc
    · obtain ⟨v, hv, _⟩ := Except.map_eq_ok_iff.mp h
      exact isAlphanum_of_readLiteral hv c hc

/-- What a token that is an operand is made of. Only the name of a label can have other characters. -/
theorem mem_of_parse {token : String} {o : Operand} (h : parse token = .ok o) {c : Char}
    (hc : c ∈ token.toList) : c ∈ ['[', ']', '#'] ∨ c.isAlphanum = true ∨
      ∃ name, o.atom = .immediate (.label name) ∧ c ∈ name.toList := by
  obtain ⟨inner, hatom, htoken⟩ := exists_inner_of_parse h
  have hmem : c = '[' ∨ c ∈ inner ∨ c = ']' := by
    rcases htoken with ⟨_, htoken⟩ | ⟨_, htoken, _⟩
    · simpa [htoken] using hc
    · exact .inr (.inl (htoken ▸ hc))
  rcases hmem with rfl | hc | rfl
  · exact .inl (by decide)
  · exact (mem_of_readAtom hatom hc).imp_left fun hc => by simp [hc]
  · exact .inl (by decide)

theorem parse_address (v : UInt8) : parse (Text.address v.toNat) =
    .error (.invalidLiteral (Text.address v.toNat)) := by
  have hlast : (Text.address v.toNat).toList.getLast? ≠ some ']' := by
    intro hlast
    cases Text.isAlphanum_of_mem_address (List.mem_of_getLast? hlast)
  have hliteral : readLiteral (Text.address v.toNat).toList =
      .error (.invalidLiteral (Text.address v.toNat)) := by
    unfold readLiteral
    rw [String.ofList_toList, Text.toList_address]
    simp [Text.ofDecimal?]
  unfold parse
  rw [unbracket_of_ne (by simp [Text.toList_address]) hlast]
  rw [Text.toList_address] at hliteral ⊢
  simp only [readAtom_of_digit (show '0'.isDigit = true from rfl), hliteral]
  rfl

end Operand

end Breadboard
