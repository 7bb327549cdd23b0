import Breadboard.Proofs.LineRoundTrip
import Breadboard.Proofs.Measure

/-! Resolving labels. A resolver supplies at most one byte of a statement, the one behind the head
byte, and all it can add to the faults is a label that it does not know. So a resolver that knows more
labels gives the same bytes, and one that puts the labels elsewhere changes that one byte only. -/

set_option autoImplicit false

namespace Breadboard

theorem Immediate.byte_label_eq_ok_iff {r : Resolver} {name : String} {b : UInt8} :
    (label name).byte r = .ok b ↔ r name = some b := by
  cases h : r name <;> simp [Immediate.byte, h]

namespace Encoding

theorem head?_of_bytes {r : Resolver} {e : Encoding} {w : List UInt8} (h : e.bytes r = .ok w) :
    w.head? = some e.head := by
  unfold bytes at h
  split at h
  · cases h; rfl
  · obtain ⟨v, _, rfl⟩ := Except.map_eq_ok_iff.mp h
    rfl

theorem exists_immediate_of_bytes {r : Resolver} {e : Encoding} {w : List UInt8} {b : UInt8}
    (h : e.bytes r = .ok w) (hb : w[1]? = some b) :
    ∃ i, e.immediate = some i ∧ i.byte r = .ok b := by
  unfold bytes at h
  split at h
  · cases h; simp at hb
  · next i hi =>
    obtain ⟨v, hv, rfl⟩ := Except.map_eq_ok_iff.mp h
    obtain rfl : v = b := by simpa using hb
    exact ⟨i, hi, hv⟩

end Encoding

namespace Statement

/-- The statements whose second byte is the address of a label. -/
def UsesLabel (s : Statement) : Prop := s.line.opcode ≠ "" ∧ s.labels ≠ []

instance (s : Statement) : Decidable s.UsesLabel :=
  inferInstanceAs (Decidable (s.line.opcode ≠ "" ∧ s.labels ≠ []))

def relocate (f : UInt8 → UInt8) (s : Statement) (w : List UInt8) : List UInt8 :=
  if s.UsesLabel then w.modify 1 f else w

@[simp] theorem length_relocate (f : UInt8 → UInt8) (s : Statement) (w : List UInt8) :
    (s.relocate f w).length = w.length := by
  unfold relocate
  split <;> simp

theorem getElem?_relocate (f : UInt8 → UInt8) (s : Statement) (w : List UInt8) (a : Nat) :
    (s.relocate f w)[a]? = w[a]?.map fun b => if s.UsesLabel ∧ a = 1 then f b else b := by
  unfold relocate
  by_cases huse : s.UsesLabel
  · rw [if_pos huse, List.getElem?_modify]
    simp [huse, eq_comm]
  · simp [huse]

section Encode
variable {s : Statement} {r r' : Resolver} {w : List UInt8} (hw : s.encode r = .ok w)
include hw

/-- Either no label is looked up, or the second byte is the address of one. -/
theorem encode_cases : (¬ s.UsesLabel ∧ ∀ r', s.encode r' = .ok w) ∨
    (s.UsesLabel ∧ ∃ head name v, r name = some v ∧ w = [head, v] ∧
      ∀ r' v', r' name = some v' → s.encode r' = .ok [head, v']) := by
  rw [encode_eq] at hw
  obtain ⟨e, he, hw⟩ := Except.bind_eq_ok_iff.mp hw
  cases e with
  | none =>
    have hop : s.line.opcode = "" := String.isEmpty_iff.mp (encoding_eq_none_iff.mp he)
    exact .inl ⟨fun h => h.1 hop, fun r' => by rw [encode_eq, he]; exact hw⟩
  | some e =>
    obtain ⟨hne, op, _, hof⟩ := encoding_eq_some he
    have hlabels : s.labels = e.label?.toList := Encoding.labels_of hof
    have hencode (r' : Resolver) : s.encode r' = e.bytes r' := by rw [encode_eq, he]; rfl
    obtain ⟨head, i⟩ := e
    rcases i with _ | v | name
    · exact .inl ⟨fun h => h.2 hlabels, fun r' => by rw [hencode]; exact hw⟩
    · exact .inl ⟨fun h => h.2 hlabels, fun r' => by rw [hencode]; exact hw⟩
    · have hlabel : s.labels ≠ [] := by simp [hlabels, Encoding.label?]
      refine .inr ⟨⟨Line.isEmpty_eq_false_iff.mp hne, hlabel⟩, head, name, ?_⟩
      have hbytes {r : Resolver} {v : UInt8} (hv : r name = some v) :
          Encoding.bytes r ⟨head, some (.label name)⟩ = .ok [head, v] := by
        simp [Encoding.bytes, Immediate.byte, hv, Except.map]
      cases hv : r name with
      | none => simp [Encoding.bytes, Immediate.byte, hv, Except.map] at hw
      | some v =>
        obtain rfl : [head, v] = w := by simpa [hbytes hv] using hw
        exact ⟨v, rfl, rfl, fun r' v' hv' => by rw [hencode, hbytes hv']⟩

theorem encode_relocate {f : UInt8 → UInt8} (h : ∀ name v, r name = some v → r' name = some (f v)) :
    s.encode r' = .ok (s.relocate f w) := by
  unfold relocate
  rcases encode_cases hw with ⟨hno, hsame⟩ | ⟨huse, head, name, v, hv, rfl, hother⟩
  · rw [if_neg hno]
    exact hsame r'
  · rw [if_pos huse]
    exact hother r' (f v) (h name v hv)

theorem encode_mono (h : ∀ name v, r name = some v → r' name = some v) : s.encode r' = .ok w := by
  have hid := encode_relocate hw (f := id) h
  unfold relocate at hid
  simpa using hid

theorem exists_of_usesLabel (huse : s.UsesLabel) {b : UInt8} (hb : w[1]? = some b) :
    ∃ name, r name = some b := by
  rcases encode_cases hw with ⟨hno, _⟩ | ⟨_, head, name, v, hv, rfl, _⟩
  · exact absurd huse hno
  · obtain rfl : v = b := by simpa using hb
    exact ⟨name, hv⟩

end Encode

theorem length_of_usesLabel {s : Statement} {n : Nat} (h : s.length = .ok n) (huse : s.UsesLabel) :
    n = 2 := by
  obtain ⟨w, hw, rfl⟩ := Except.map_eq_ok_iff.mp h
  rcases encode_cases hw with ⟨hno, _⟩ | ⟨_, _, _, _, _, rfl, _⟩
  · exact absurd huse hno
  · rfl

theorem labels_of_parse {text : String} {s : Statement} (h : parse text = .ok s)
    (hop : s.line.opcode = "") : s.labels = [] := by
  obtain ⟨line, hline, hof⟩ := Except.bind_eq_ok_iff.mp h
  obtain ⟨operands, hoperands, rfl⟩ := Except.map_eq_ok_iff.mp hof
  obtain ⟨_, _, _, _, hbody⟩ := Line.spells_of_parse hline
  rw [hbody.params_eq_nil hop] at hoperands
  cases hoperands
  rfl

section Bytes
variable {s : Statement} {r : Resolver} {w : List UInt8} (hw : s.encode r = .ok w)
include hw

theorem head?_of_encode {e : Option Encoding} (he : s.encoding = .ok e) :
    w.head? = e.map Encoding.head := by
  rw [encode_eq, he] at hw
  cases e with
  | none => cases hw; rfl
  | some e => exact Encoding.head?_of_bytes hw

theorem exists_immediate_of_encode {b : UInt8} (hb : w[1]? = some b) :
    ∃ i, s.operands.filterMap Operand.immediate? = [i] ∧ i.byte r = .ok b := by
  rw [encode_eq] at hw
  obtain ⟨e, he, hw⟩ := Except.bind_eq_ok_iff.mp hw
  cases e with
  | none => cases hw; simp at hb
  | some e =>
    obtain ⟨_, op, _, hof⟩ := encoding_eq_some he
    obtain ⟨i, hi, hbyte⟩ := Encoding.exists_immediate_of_bytes hw hb
    exact ⟨i, by rw [Encoding.immediates_of hof, hi]; rfl, hbyte⟩

end Bytes

/-- The fault of a statement that cannot be measured is the fault of every encoding. Otherwise the
length is that of every encoding, and a resolver gives the second byte or nothing. -/
theorem encode_upTo_label (s : Statement) (r : Resolver) :
    (∀ fault, s.length = .error fault →
      s.encode r = .error fault ∧ ∀ name, fault ≠ .undefinedLabel name) ∧
    (∀ n, s.length = .ok n → n ≤ 2 ∧
      ((∃ w, s.encode r = .ok w ∧ w.length = n) ∨
        ∃ name ∈ s.labels, r name = none ∧ s.encode r = .error (.undefinedLabel name)) ∧
      ∀ name, s.encode r = .error (.undefinedLabel name) ↔
        0 < n ∧ name ∈ s.labels ∧ r name = none) ∧
    ∀ r' w w', s.encode r = .ok w → s.encode r' = .ok w' →
      w.length = w'.length ∧ w.head? = w'.head? ∧
      ∀ b b', w[1]? = some b → w'[1]? = some b' →
        (∃ v, s.operands.filterMap Operand.immediate? = [.literal v] ∧ b = v ∧ b' = v) ∨
        ∃ name, s.operands.filterMap Operand.immediate? = [.label name] ∧
          r name = some b ∧ r' name = some b' := by
  refine ⟨fun fault h => ⟨encode_of_length_eq_error h r, ?_⟩, fun n h => ?_, ?_⟩
  · rintro name rfl
    exact encoding_ne_undefinedLabel s name (length_eq_error_iff.mp h)
  · have hfault (name : String) : s.encode r = .error (.undefinedLabel name) ↔
        0 < n ∧ name ∈ s.labels ∧ r name = none := by
      rw [encode_eq_error_iff h, Nat.pos_iff_ne_zero, ne_eq, length_eq_zero_iff h]
      simp
    refine ⟨length_le_two h, ?_, hfault⟩
    cases hs : s.encode r with
    | ok w => exact .inl ⟨w, rfl, length_of_encode h hs⟩
    | error fault =>
      obtain ⟨_, name, hname, hnone, rfl⟩ := (encode_eq_error_iff h).mp hs
      exact .inr ⟨name, hname, hnone, rfl⟩
  · intro r' w w' hw hw'
    have hlength := length_eq_of_encode hw
    obtain ⟨e, he, _⟩ := Except.bind_eq_ok_iff.mp (encode_eq r s ▸ hw)
    refine ⟨(length_of_encode hlength hw').symm, ?_, fun b b' hb hb' => ?_⟩
    · rw [head?_of_encode hw he, head?_of_encode hw' he]
    · obtain ⟨i, hi, hbyte⟩ := exists_immediate_of_encode hw hb
      obtain ⟨i', hi', hbyte'⟩ := exists_immediate_of_encode hw' hb'
      obtain rfl : i = i' := by simpa [hi] using hi'
      cases i with
      | literal v =>
        exact .inl ⟨v, hi, (Except.ok.inj hbyte).symm, (Except.ok.inj hbyte').symm⟩
      | label name =>
        exact .inr ⟨name, hi, Immediate.byte_label_eq_ok_iff.mp hbyte,
          Immediate.byte_label_eq_ok_iff.mp hbyte'⟩

/-- A jump to a label, which is one byte that the operation fixes and one that the resolver gives. -/
theorem encode_upTo_label_jump :
    let s : Statement :=
      ⟨⟨none, "JMP", some "#x", none, none⟩, [⟨.immediate (.label "x"), false⟩]⟩
    s.length = .ok 2 ∧ s.encode (fun _ => none) = .error (.undefinedLabel "x") ∧
      s.encode (fun _ => some 7) = .ok [238, 7] ∧
      ∀ w, s.encode (fun _ => some 9) = .ok w → w.head? = some 238 := by
  intro s
  have h : s.length = .ok 2 := by rfl
  have hw : s.encode (fun _ => some 7) = .ok [238, 7] := by rfl
  refine ⟨h, ((encode_upTo_label s fun _ => none).2.1 2 h).2.2 "x" |>.mpr ⟨by decide, by decide, rfl⟩,
    hw, fun w hw' => ?_⟩
  exact ((encode_upTo_label s fun _ => some 7).2.2 _ _ _ hw hw').2.1.symm

end Statement

end Breadboard
