import Breadboard.Machine.Instr
import Breadboard.Proofs.HeadCodec

/-! Instructions and their bytes. The bytes of an encoding, with anything behind them, are read back
as one instruction of the same operation and operands, in which labels have become their addresses.
The other way round, an instruction that is read from bytes has an encoding, which gives these
bytes. -/

set_option autoImplicit false

namespace Breadboard

/-- The operand with the address of its label in place of the label. -/
def Operand.resolve? (r : Resolver) (o : Operand) : Option Operand :=
  match o.atom with
  | .immediate (.label name) => (r name).map fun v => ⟨.immediate (.literal v), o.indirect⟩
  | _ => some o

def Op.textWith (op : Op) (operands : List Operand) : String :=
  op.mnemonic ++ if operands = [] then ""
    else " " ++ String.intercalate ", " (operands.map Operand.render)

theorem Operand.resolve?_eq {r : Resolver} {o : Operand} {v : UInt8} (hn : o.Named)
    (h : ∀ i, o.immediate? = some i → i.byte r = .ok v) :
    o.resolve? r = some (o.field.operand v) := by
  obtain ⟨atom, indirect⟩ := o
  rcases atom with register | value | name
  · cases register <;> first | rfl | exact absurd rfl hn
  · cases h _ rfl
    rfl
  · have hname := h _ rfl
    cases hr : r name with
    | none => simp [Immediate.byte, hr] at hname
    | some a =>
      obtain rfl : a = v := by simpa [Immediate.byte, hr] using hname
      simp [resolve?, hr, field, Field.operand, Field.fetches]

theorem Statement.named_of_ofLine {line : Line} {s : Statement} (h : ofLine line = .ok s) :
    ∀ o ∈ s.operands, o.Named := by
  obtain ⟨operands, hread, rfl⟩ := Except.map_eq_ok_iff.mp h
  exact Except.forall_of_mapM hread fun _ _ => Operand.named_of_parse

theorem Encoding.immediate_eq_some_iff {op : Op} {operands : List Operand} {e : Encoding}
    (h : of op operands = .ok e) (i : Immediate) :
    e.immediate = some i ↔ ∃ o ∈ operands, o.immediate? = some i := by
  rw [← Option.mem_toList, ← immediates_of h, List.mem_filterMap]

namespace Instr

/-- The operands that the fields of an instruction stand for. The default serves no instruction that
was read, since one whose fields fetch an immediate has it. -/
def operands (i : Instr) : List Operand := i.fields.map (Field.operand (i.imm.getD 0))

theorem decode?_cons_eq_some_iff {byte : UInt8} {rest : List UInt8} {i : Instr} :
    decode? (byte :: rest) = some i ↔ ∃ head, Head.ofByte? byte = some head ∧
      (head.fetches = false ∧ i = ⟨head, 1, none⟩ ∨
        head.fetches = true ∧ ∃ v, rest.head? = some v ∧ i = ⟨head, 2, some v⟩) := by
  simp only [decode?]
  cases Head.ofByte? byte with
  | none => simp
  | some head => cases hf : head.fetches <;> simp [hf, eq_comm (a := i)]

/-- The bytes of an encoding are read back whatever comes behind them. -/
theorem exists_decode?_of {op : Op} {operands : List Operand} {e : Encoding} {r : Resolver}
    {w : List UInt8} (hn : ∀ o ∈ operands, o.Named) (h : Encoding.of op operands = .ok e)
    (hw : e.bytes r = .ok w) (rest : List UInt8) :
    ∃ i, decode? (w ++ rest) = some i ∧ i.op = op ∧ i.width = w.length ∧
      operands.Forall₂ (fun o resolved => o.resolve? r = some resolved) i.operands := by
  obtain ⟨head, hhead, rfl, hfields⟩ := Encoding.ofByte?_of hn h
  have himmediate := Encoding.immediate_eq_some_iff h
  have hfetches : head.fetches = e.immediate.isSome := by
    rw [Head.fetches_eq, hfields, Bool.eq_iff_iff, List.any_eq_true, Option.isSome_iff_exists]
    simp only [himmediate, List.mem_map]
    constructor
    · rintro ⟨_, ⟨o, ho, rfl⟩, hf⟩
      rw [Operand.fetches_field (hn o ho)] at hf
      obtain ⟨i, hi⟩ := Option.isSome_iff_exists.mp hf
      exact ⟨i, o, ho, hi⟩
    · rintro ⟨i, o, ho, hi⟩
      exact ⟨o.field, ⟨o, ho, rfl⟩, by rw [Operand.fetches_field (hn o ho), hi]; rfl⟩
  have hresolve (v : UInt8) (hv : ∀ i, e.immediate = some i → i.byte r = .ok v) :
      operands.Forall₂ (fun o resolved => o.resolve? r = some resolved)
        (head.fields.map (Field.operand v)) := by
    rw [hfields, List.map_map, List.forall₂_map_right_iff, List.forall₂_same]
    intro o ho
    exact Operand.resolve?_eq (hn o ho) fun i hi => hv i ((himmediate i).mpr ⟨o, ho, hi⟩)
  unfold Encoding.bytes at hw
  cases hi : e.immediate with
  | none =>
    rw [hi] at hw hfetches
    cases hw
    exact ⟨⟨head, 1, none⟩, decode?_cons_eq_some_iff.mpr ⟨head, hhead, .inl ⟨hfetches, rfl⟩⟩, rfl,
      rfl, hresolve 0 (by simp [hi])⟩
  | some i =>
    rw [hi] at hw hfetches
    obtain ⟨v, hv, rfl⟩ := Except.map_eq_ok_iff.mp hw
    exact ⟨⟨head, 2, some v⟩,
      decode?_cons_eq_some_iff.mpr ⟨head, hhead, .inr ⟨hfetches, v, rfl, rfl⟩⟩, rfl, rfl,
      hresolve v (by simpa [hi] using hv)⟩

theorem exists_of_decode? {bytes : List UInt8} {i : Instr} (h : decode? bytes = some i) :
    ∃ e, Encoding.of i.op i.operands = .ok e ∧ ∀ r, e.bytes r = .ok (bytes.take i.width) := by
  cases bytes with
  | nil => cases h
  | cons byte rest =>
    obtain ⟨head, hhead, ⟨hf, rfl⟩ | ⟨hf, v, hv, rfl⟩⟩ := decode?_cons_eq_some_iff.mp h
    · refine ⟨_, Encoding.of_fields hhead 0, fun r => ?_⟩
      simp [Encoding.bytes, hf]
    · refine ⟨_, Encoding.of_fields hhead v, fun r => ?_⟩
      obtain ⟨rest, rfl⟩ := List.head?_eq_some_iff.mp hv
      simp [Encoding.bytes, hf, Immediate.byte, Except.map]

theorem text_field {imm : Option UInt8} {f : Field} (h : f.fetches = true → imm.isSome) :
    f.text imm = (f.operand (imm.getD 0)).render := by
  unfold Field.text Field.operand Operand.render
  cases hf : f.fetches with
  | false => rfl
  | true =>
    obtain ⟨v, rfl⟩ := Option.isSome_iff_exists.mp (h hf)
    rfl

theorem isSome_imm_of_decode? {bytes : List UInt8} {i : Instr} (h : decode? bytes = some i)
    {f : Field} (hf : f ∈ i.fields) (hfetches : f.fetches = true) : i.imm.isSome := by
  cases bytes with
  | nil => cases h
  | cons byte rest =>
    obtain ⟨head, hhead, ⟨hnone, rfl⟩ | ⟨_, v, _, rfl⟩⟩ := decode?_cons_eq_some_iff.mp h
    · rw [Head.fetches_eq, List.any_eq_false] at hnone
      exact absurd hfetches (hnone f hf)
    · rfl

theorem text_of_decode? {bytes : List UInt8} {i : Instr} (h : decode? bytes = some i) :
    i.text = i.op.textWith i.operands := by
  have hfield (f : Field) (hf : f ∈ i.fields) : f.text i.imm = (f.operand (i.imm.getD 0)).render :=
    text_field (isSome_imm_of_decode? h hf)
  obtain ⟨⟨op, dest, src⟩, width, imm⟩ := i
  unfold text Op.textWith operands
  cases dest <;> cases src <;> simp_all [Head.fields, String.append_assoc]

end Instr

end Breadboard
