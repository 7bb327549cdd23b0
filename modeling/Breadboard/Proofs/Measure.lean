import Breadboard.Proofs.Except
import Breadboard.Source.Statement

/-! Measuring statements. Whether a statement can be encoded, with which head byte and on how many
bytes is settled before any label is looked up; a resolver only supplies the value of one immediate.
So the length that is measured with every label at zero is the length of every encoding, and the one
fault that a resolver can add is a label that it does not know. -/

set_option autoImplicit false

namespace Breadboard

def Immediate.label? : Immediate → Option String
  | literal _ => none
  | label name => some name

def Operand.label? (o : Operand) : Option String :=
  match o.atom with
  | .immediate (.label name) => some name
  | _ => none

theorem Operand.isRegister_eq (o : Operand) : o.isRegister = o.immediate?.isNone := by
  obtain ⟨atom, _⟩ := o
  cases atom <;> rfl

namespace Encoding

def size (e : Encoding) : Nat := if e.immediate.isSome then 2 else 1

/-- The label whose address is the second byte of an encoding. -/
def label? (e : Encoding) : Option String :=
  match e.immediate with
  | some (.label name) => some name
  | _ => none

theorem size_pos (e : Encoding) : 0 < e.size := by unfold size; split <;> omega

theorem size_le_two (e : Encoding) : e.size ≤ 2 := by unfold size; split <;> omega

theorem length_of_bytes {r : Resolver} {e : Encoding} {w : List UInt8} (h : e.bytes r = .ok w) :
    w.length = e.size := by
  unfold bytes at h
  unfold size
  split at h
  · next hi => cases h; simp [hi]
  · next i hi =>
    obtain ⟨v, _, rfl⟩ := Except.map_eq_ok_iff.mp h
    simp [hi]

theorem exists_bytes_iff {r : Resolver} {e : Encoding} :
    (∃ w, e.bytes r = .ok w) ↔ ∀ name, e.label? = some name → (r name).isSome := by
  obtain ⟨head, i⟩ := e
  rcases i with _ | v | name
  · simp [bytes, label?]
  · simp [bytes, label?, Immediate.byte, Except.map]
  · cases h : r name <;> simp [bytes, label?, Immediate.byte, Except.map, h]

theorem bytes_eq_error_iff {r : Resolver} {e : Encoding} {fault : EncodeError} :
    e.bytes r = .error fault ↔
      ∃ name, e.label? = some name ∧ r name = none ∧ fault = .undefinedLabel name := by
  obtain ⟨head, i⟩ := e
  rcases i with _ | v | name
  · simp [bytes, label?]
  · simp [bytes, label?, Immediate.byte, Except.map]
  · cases h : r name <;> simp [bytes, label?, Immediate.byte, Except.map, h, eq_comm]

theorem exists_bytes_zero (e : Encoding) : ∃ w, e.bytes Resolver.zero = .ok w :=
  exists_bytes_iff.mpr fun _ _ => rfl

theorem immediates_of_move {dest src : Operand} {e : Encoding} (h : move dest src = .ok e) :
    [dest, src].filterMap Operand.immediate? = e.immediate.toList := by
  unfold move at h
  split at h
  · cases h
  split at h
  · cases h
  next hi =>
  split at h
  · cases h
  · cases h
  cases h
  rw [Operand.isRegister_eq, Operand.isRegister_eq] at hi
  cases hd : dest.immediate? <;> cases hs : src.immediate? <;> simp_all

theorem immediates_of_source {op : Op} {head : UInt8 → UInt8} {src : Operand} {e : Encoding}
    (h : source op head src = .ok e) :
    [src].filterMap Operand.immediate? = e.immediate.toList := by
  unfold source at h
  split at h
  · cases h
  · cases h
    cases hi : src.immediate? <;> simp [hi]

theorem immediates_of_stack {op : Op} {kind : UInt8} {o : Operand} {e : Encoding}
    (h : stack op kind o = .ok e) : [o].filterMap Operand.immediate? = e.immediate.toList := by
  unfold stack at h
  split at h
  · cases h
  next hr =>
  have ho : o.immediate? = none := by simpa [Operand.isRegister_eq] using hr
  have he : e.immediate = none := by
    unfold stackByte at h
    grind
  simp [ho, he]

theorem immediates_of {op : Op} {operands : List Operand} {e : Encoding}
    (h : of op operands = .ok e) :
    operands.filterMap Operand.immediate? = e.immediate.toList := by
  unfold of at h
  split at h
  · exact immediates_of_move h
  · exact immediates_of_source h
  · exact immediates_of_source h
  · exact immediates_of_stack h
  · cases h; rfl
  · cases h

theorem labels_of {op : Op} {operands : List Operand} {e : Encoding}
    (h : of op operands = .ok e) : operands.filterMap Operand.label? = e.label?.toList := by
  have hl : Operand.label? = fun o => o.immediate?.bind Immediate.label? := by
    funext o
    obtain ⟨atom, _⟩ := o
    rcases atom with r | v | name <;> rfl
  rw [hl, ← List.filterMap_filterMap, immediates_of h]
  obtain ⟨head, i⟩ := e
  rcases i with _ | v | name <;> rfl

theorem move_ne_undefinedLabel (dest src : Operand) (name : String) :
    move dest src ≠ .error (.undefinedLabel name) := by
  unfold move
  repeat' split
  all_goals simp

theorem source_ne_undefinedLabel (op : Op) (head : UInt8 → UInt8) (src : Operand) (name : String) :
    source op head src ≠ .error (.undefinedLabel name) := by
  unfold source
  split <;> simp

theorem stack_ne_undefinedLabel (op : Op) (kind : UInt8) (o : Operand) (name : String) :
    stack op kind o ≠ .error (.undefinedLabel name) := by
  unfold stack stackByte
  dsimp only
  repeat' split
  all_goals simp

/-- No label is looked up before the head byte is settled. -/
theorem of_ne_undefinedLabel (op : Op) (operands : List Operand) (name : String) :
    of op operands ≠ .error (.undefinedLabel name) := by
  unfold of
  split
  · exact move_ne_undefinedLabel _ _ name
  · exact source_ne_undefinedLabel _ _ _ name
  · exact source_ne_undefinedLabel _ _ _ name
  · exact stack_ne_undefinedLabel _ _ _ name
  · simp
  · simp

end Encoding

theorem Line.isEmpty_eq_false_iff {l : Line} : l.isEmpty = false ↔ l.opcode ≠ "" := by
  rw [isEmpty, ← Bool.not_eq_true, String.isEmpty_iff]

namespace Statement

def labels (s : Statement) : List String := s.operands.filterMap Operand.label?

/-- The encoding of a statement, or `none` if it has no opcode. -/
def encoding (s : Statement) : Except EncodeError (Option Encoding) :=
  if s.line.isEmpty then .ok none
  else match Op.ofMnemonic? s.line.opcode with
    | none => .error (.unknownOpcode s.line.opcode)
    | some op => (Encoding.of op s.operands).map some

theorem encode_eq (r : Resolver) (s : Statement) :
    s.encode r = s.encoding.bind fun e => e.elim (.ok []) (Encoding.bytes r) := by
  unfold encode encoding
  cases s.line.isEmpty with
  | true => rfl
  | false =>
    cases Op.ofMnemonic? s.line.opcode with
    | none => rfl
    | some op =>
      simp only [Bool.false_eq_true, if_false]
      cases Encoding.of op s.operands <;> rfl

theorem encoding_eq_none_iff {s : Statement} : s.encoding = .ok none ↔ s.line.isEmpty = true := by
  unfold encoding
  split
  · simp_all
  · split
    · simp_all
    · simp_all [Except.map_eq_ok_iff]

theorem encoding_eq_some {s : Statement} {e : Encoding} (h : s.encoding = .ok (some e)) :
    s.line.isEmpty = false ∧
      ∃ op, Op.ofMnemonic? s.line.opcode = some op ∧ Encoding.of op s.operands = .ok e := by
  unfold encoding at h
  split at h
  · cases h
  · next hne =>
    split at h
    · cases h
    · next op hop =>
      obtain ⟨e', he, h⟩ := Except.map_eq_ok_iff.mp h
      cases h
      exact ⟨by simpa using hne, op, hop, he⟩

theorem length_eq (s : Statement) : s.length = s.encoding.map fun e => e.elim 0 Encoding.size := by
  unfold length
  rw [encode_eq]
  rcases s.encoding with fault | _ | e
  · rfl
  · rfl
  · obtain ⟨w, hw⟩ := e.exists_bytes_zero
    simp [Except.bind, Except.map, hw, Encoding.length_of_bytes hw]

theorem encoding_ne_undefinedLabel (s : Statement) (name : String) :
    s.encoding ≠ .error (.undefinedLabel name) := by
  unfold encoding
  split
  · simp
  split
  · simp
  · exact fun h => Encoding.of_ne_undefinedLabel _ _ name (Except.map_eq_error_iff.mp h)

theorem length_eq_error_iff {s : Statement} {fault : EncodeError} :
    s.length = .error fault ↔ s.encoding = .error fault := by
  rw [length_eq, Except.map_eq_error_iff]

theorem encode_of_length_eq_error {s : Statement} {fault : EncodeError}
    (h : s.length = .error fault) (r : Resolver) : s.encode r = .error fault := by
  rw [encode_eq, length_eq_error_iff.mp h]
  rfl

theorem length_eq_of_encode {s : Statement} {r : Resolver} {w : List UInt8}
    (h : s.encode r = .ok w) : s.length = .ok w.length := by
  rw [encode_eq] at h
  obtain ⟨e, he, h⟩ := Except.bind_eq_ok_iff.mp h
  rw [length_eq, he]
  cases e with
  | none => cases h; rfl
  | some e => rw [Encoding.length_of_bytes h]; rfl

section Measured
variable {s : Statement} {n : Nat} (h : s.length = .ok n)
include h

theorem length_le_two : n ≤ 2 := by
  rw [length_eq] at h
  obtain ⟨e, _, rfl⟩ := Except.map_eq_ok_iff.mp h
  cases e with
  | none => exact Nat.zero_le 2
  | some e => exact e.size_le_two

theorem length_eq_zero_iff : n = 0 ↔ s.line.isEmpty = true := by
  rw [length_eq] at h
  obtain ⟨e, he, rfl⟩ := Except.map_eq_ok_iff.mp h
  rw [← encoding_eq_none_iff, he]
  cases e with
  | none => simp
  | some e => simpa using Nat.ne_of_gt e.size_pos

theorem length_of_encode {r : Resolver} {w : List UInt8} (hw : s.encode r = .ok w) :
    w.length = n := by
  simpa [length_eq_of_encode hw] using h

theorem exists_encode_iff {r : Resolver} :
    (∃ w, s.encode r = .ok w) ↔
      (s.line.isEmpty = false → ∀ name ∈ s.labels, (r name).isSome) := by
  rw [length_eq] at h
  obtain ⟨e, he, rfl⟩ := Except.map_eq_ok_iff.mp h
  cases e with
  | none => simp [encode_eq, he, Except.bind, encoding_eq_none_iff.mp he]
  | some e =>
    obtain ⟨hne, op, _, hof⟩ := encoding_eq_some he
    rw [encode_eq, he, labels, Encoding.labels_of hof]
    simp only [Except.bind, Option.elim_some, hne, forall_const, Option.mem_toList]
    exact Encoding.exists_bytes_iff

/-- The only fault of a statement that can be measured is a label that has no address. -/
theorem encode_eq_error_iff {r : Resolver} {fault : EncodeError} :
    s.encode r = .error fault ↔ s.line.isEmpty = false ∧
      ∃ name ∈ s.labels, r name = none ∧ fault = .undefinedLabel name := by
  rw [length_eq] at h
  obtain ⟨e, he, rfl⟩ := Except.map_eq_ok_iff.mp h
  cases e with
  | none => simp [encode_eq, he, Except.bind, encoding_eq_none_iff.mp he]
  | some e =>
    obtain ⟨hne, op, _, hof⟩ := encoding_eq_some he
    rw [encode_eq, he, labels, Encoding.labels_of hof]
    simp only [Except.bind, Option.elim_some, hne, true_and, Option.mem_toList]
    exact Encoding.bytes_eq_error_iff

end Measured

end Statement

end Breadboard
