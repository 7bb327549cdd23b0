import Breadboard.Proofs.InstrCodec

/-! Encoding and decoding as one relation between statements and bytes. Replacing the labels of
operands by their addresses changes neither whether they can be encoded nor to what, so what is read
from bytes can be compared with operands that hold labels. A statement encodes to the first bytes of a
list exactly if its operation and its operands are read from that list. -/

set_option autoImplicit false

namespace Breadboard

/-- A field of an instruction with the given immediate stands for an operand. An immediate operand is
fetched through the program counter, and a label is the address that it has. -/
def Field.StandsFor (r : Resolver) (imm : Option UInt8) (f : Field) (o : Operand) : Prop :=
  f.indirect = o.indirect ∧
    match o.atom with
    | .register x => f.register = x
    | .immediate (.literal v) => f.register = .pc ∧ imm = some v
    | .immediate (.label name) => f.register = .pc ∧ ∃ v, r name = some v ∧ imm = some v

namespace Field

theorem immediate_eq_operand_iff {f : Field} {v w : UInt8} {indirect : Bool} :
    (⟨.immediate (.literal w), indirect⟩ : Operand) = f.operand v ↔
      f.register = .pc ∧ v = w ∧ f.indirect = indirect := by
  obtain ⟨x, i⟩ := f
  cases x <;> simp [operand, fetches, eq_comm]

theorem register_eq_operand_iff {f : Field} {v : UInt8} {x : Register} {indirect : Bool}
    (hx : x ≠ .pc) :
    (⟨.register x, indirect⟩ : Operand) = f.operand v ↔
      f.register = x ∧ f.indirect = indirect := by
  obtain ⟨y, i⟩ := f
  cases y <;> simp [operand, fetches, hx.symm, eq_comm]

theorem standsFor_iff {r : Resolver} {imm : Option UInt8} {f : Field} {o : Operand}
    (ho : o.Named) (himm : f.fetches = true → imm.isSome) :
    f.StandsFor r imm o ↔ o.resolve? r = some (f.operand (imm.getD 0)) := by
  -- On the program counter the default of the immediate is never taken.
  have hvalue (hpc : f.register = .pc) (v : UInt8) : imm = some v ↔ imm.getD 0 = v := by
    obtain ⟨w, rfl⟩ := Option.isSome_iff_exists.mp (himm (by simp [fetches, hpc]))
    simp
  obtain ⟨atom, indirect⟩ := o
  rcases atom with x | v | name
  · have hx : x ≠ .pc := fun hx => ho (by rw [hx])
    rw [Operand.resolve?, Option.some_inj, register_eq_operand_iff hx]
    exact and_comm
  · rw [Operand.resolve?, Option.some_inj, immediate_eq_operand_iff]
    constructor
    · rintro ⟨hindirect, hpc, hv⟩
      exact ⟨hpc, (hvalue hpc v).mp hv, hindirect⟩
    · rintro ⟨hpc, hv, hindirect⟩
      exact ⟨hindirect, hpc, (hvalue hpc v).mpr hv⟩
  · rw [Operand.resolve?, Option.map_eq_some_iff]
    simp only [immediate_eq_operand_iff]
    constructor
    · rintro ⟨hindirect, hpc, v, hname, hv⟩
      exact ⟨v, hname, hpc, (hvalue hpc v).mp hv, hindirect⟩
    · rintro ⟨v, hname, hpc, hv, hindirect⟩
      exact ⟨hindirect, hpc, v, hname, (hvalue hpc v).mpr hv⟩

theorem forall₂_standsFor_iff {r : Resolver} {imm : Option UInt8} {fields : List Field}
    {operands : List Operand} (hn : ∀ o ∈ operands, o.Named)
    (himm : ∀ f ∈ fields, f.fetches = true → imm.isSome) :
    fields.Forall₂ (StandsFor r imm) operands ↔
      operands.Forall₂ (fun o d => o.resolve? r = some d) (fields.map (operand (imm.getD 0))) := by
  induction fields generalizing operands with
  | nil => simp
  | cons f fields ih =>
    cases operands with
    | nil => simp
    | cons o operands =>
      rw [List.forall_mem_cons] at hn himm
      rw [List.map_cons, List.forall₂_cons, List.forall₂_cons, standsFor_iff hn.1 himm.1,
        ih hn.2 himm.2]

end Field

namespace Operand
variable {r : Resolver} {o d : Operand} (h : o.resolve? r = some d)
include h

theorem field_of_resolve? : d.field = o.field := by
  obtain ⟨atom, indirect⟩ := o
  rcases atom with x | v | name
  · cases h; rfl
  · cases h; rfl
  · obtain ⟨v, _, rfl⟩ := Option.map_eq_some_iff.mp h
    rfl

theorem byte_of_resolve? : d.immediate?.map (Immediate.byte r) = o.immediate?.map (Immediate.byte r) := by
  obtain ⟨atom, indirect⟩ := o
  rcases atom with x | v | name
  · cases h; rfl
  · cases h; rfl
  · obtain ⟨v, hv, rfl⟩ := Option.map_eq_some_iff.mp h
    simp [immediate?, Immediate.byte, hv]

theorem indirect_of_resolve? : d.indirect = o.indirect := by
  rw [← indirect_field, field_of_resolve? h, indirect_field]

theorem isRegister_of_resolve? : d.isRegister = o.isRegister := by
  have hbyte := congrArg Option.isNone (byte_of_resolve? h)
  rwa [Option.isNone_map, Option.isNone_map, ← isRegister_eq, ← isRegister_eq] at hbyte

end Operand

namespace Encoding

theorem bytes_eq (r : Resolver) (e : Encoding) : e.bytes r =
    (e.immediate.map (Immediate.byte r)).elim (.ok [e.head]) (Except.map fun v => [e.head, v]) := by
  unfold bytes
  cases e.immediate <;> rfl

/-- The bytes of an encoding, if there is one; a fault of the operands is not kept. -/
def bytes? (r : Resolver) (e : Except EncodeError Encoding) :
    Option (Except EncodeError (List UInt8)) := e.toOption.map (bytes r)

theorem bytes?_eq_some_iff {r : Resolver} {e : Except EncodeError Encoding}
    {w : Except EncodeError (List UInt8)} :
    bytes? r e = some w ↔ ∃ e', e = .ok e' ∧ e'.bytes r = w := by
  cases e <;> simp [bytes?, Except.toOption]

section Resolved
variable {r : Resolver}

theorem move_resolved {dest src dest' src' : Operand} (hd : dest.resolve? r = some dest')
    (hs : src.resolve? r = some src') : bytes? r (move dest' src') = bytes? r (move dest src) := by
  unfold move
  rw [Operand.indirect_of_resolve? hd, Operand.indirect_of_resolve? hs,
    Operand.isRegister_of_resolve? hd, Operand.isRegister_of_resolve? hs,
    Operand.field_of_resolve? hd, Operand.field_of_resolve? hs]
  split
  · rfl
  split
  · rfl
  split
  · rfl
  · rfl
  · simp [bytes?, Except.toOption, bytes_eq, Option.map_or, Operand.byte_of_resolve? hd,
      Operand.byte_of_resolve? hs]

theorem source_resolved {src src' : Operand} (hs : src.resolve? r = some src') (op : Op)
    (head : UInt8 → UInt8) : bytes? r (source op head src') = bytes? r (source op head src) := by
  unfold source
  rw [Operand.field_of_resolve? hs]
  split
  · rfl
  · simp [bytes?, Except.toOption, bytes_eq, Operand.byte_of_resolve? hs]

theorem stack_resolved {o o' : Operand} (h : o.resolve? r = some o') (op : Op) (kind : UInt8) :
    bytes? r (stack op kind o') = bytes? r (stack op kind o) := by
  unfold stack stackByte
  rw [Operand.isRegister_of_resolve? h, Operand.field_of_resolve? h]
  split
  · rfl
  split
  · rfl
  split
  · dsimp only
    split <;> rfl
  · split <;> rfl

theorem of_resolved {operands resolved : List Operand}
    (h : operands.Forall₂ (fun o d => o.resolve? r = some d) resolved) (op : Op) :
    bytes? r (of op resolved) = bytes? r (of op operands) := by
  unfold of
  cases h with
  | nil => rfl
  | @cons o d _ _ ho h =>
    cases h with
    | nil =>
      cases op.layout with
      | alu code => exact source_resolved ho op (aluByte code)
      | branch kind => exact source_resolved ho op (ancillaryByte kind)
      | stack kind => exact stack_resolved ho op kind
      | move | fixed => rfl
    | cons ho' h =>
      cases h with
      | nil =>
        cases op.layout with
        | move => exact move_resolved ho ho'
        | alu | branch | stack | fixed => rfl
      | cons => cases op.layout <;> rfl

end Resolved

end Encoding

namespace Statement

theorem encode_eq_ok_iff_of {s : Statement} (hop : s.line.opcode ≠ "") {r : Resolver}
    {w : List UInt8} : s.encode r = .ok w ↔ ∃ op e, Op.ofMnemonic? s.line.opcode = some op ∧
      Encoding.of op s.operands = .ok e ∧ e.bytes r = .ok w := by
  have hempty : s.line.isEmpty = false := by simpa [Line.isEmpty] using hop
  unfold encode
  rw [hempty]
  cases Op.ofMnemonic? s.line.opcode with
  | none => simp
  | some op => simp [Except.bind_eq_ok_iff]

section OfLine
variable {line : Line} {s : Statement} (h : ofLine line = .ok s)
include h

/-- What a statement encodes to is read back as the operation and the operands of the statement. -/
theorem exists_decode?_of_encode (hop : s.line.opcode ≠ "") {r : Resolver} {w : List UInt8}
    (hw : s.encode r = .ok w) (rest : List UInt8) :
    ∃ i, Instr.decode? (w ++ rest) = some i ∧ i.width = w.length ∧
      Op.ofMnemonic? s.line.opcode = some i.op ∧
      i.fields.Forall₂ (Field.StandsFor r i.imm) s.operands := by
  obtain ⟨op, e, hmnemonic, he, hbytes⟩ := (encode_eq_ok_iff_of hop).mp hw
  have hnamed := named_of_ofLine h
  obtain ⟨i, hi, rfl, hwidth, hoperands⟩ := Instr.exists_decode?_of hnamed he hbytes rest
  refine ⟨i, hi, hwidth, hmnemonic, ?_⟩
  exact (Field.forall₂_standsFor_iff hnamed fun f => Instr.isSome_imm_of_decode? hi).mpr hoperands

theorem encode_of_decode? (hop : s.line.opcode ≠ "") {r : Resolver} {bytes : List UInt8} {i : Instr}
    (hi : Instr.decode? bytes = some i) (hmnemonic : Op.ofMnemonic? s.line.opcode = some i.op)
    (hfields : i.fields.Forall₂ (Field.StandsFor r i.imm) s.operands) :
    s.encode r = .ok (bytes.take i.width) := by
  obtain ⟨e, he, hbytes⟩ := Instr.exists_of_decode? hi
  have hoperands := (Field.forall₂_standsFor_iff (named_of_ofLine h) fun f =>
    Instr.isSome_imm_of_decode? hi).mp hfields
  have hresolved := Encoding.bytes?_eq_some_iff.mpr ⟨e, he, hbytes r⟩
  rw [Instr.operands, Encoding.of_resolved hoperands] at hresolved
  obtain ⟨e', he', hbytes'⟩ := Encoding.bytes?_eq_some_iff.mp hresolved
  exact (encode_eq_ok_iff_of hop).mpr ⟨i.op, e', hmnemonic, he', hbytes'⟩

/-- A statement encodes to the first bytes of a list exactly if the list begins with an instruction of
its operation and its operands. -/
theorem encode_isPrefix_iff_decode (hop : s.line.opcode ≠ "") (r : Resolver) (bytes : List UInt8) :
    ((∃ w, s.encode r = .ok w ∧ w <+: bytes) ↔
      ∃ i, Instr.decode? bytes = some i ∧ Op.ofMnemonic? s.line.opcode = some i.op ∧
        (i.dest.toList ++ i.src.toList).Forall₂ (Field.StandsFor r i.imm) s.operands) ∧
    ∀ w i, s.encode r = .ok w → w <+: bytes → Instr.decode? bytes = some i →
      w = bytes.take i.width ∧ w.length = i.width := by
  refine ⟨⟨?_, ?_⟩, ?_⟩
  · rintro ⟨w, hw, rest, rfl⟩
    obtain ⟨i, hi, _, hmnemonic, hfields⟩ := exists_decode?_of_encode h hop hw rest
    exact ⟨i, hi, hmnemonic, hfields⟩
  · rintro ⟨i, hi, hmnemonic, hfields⟩
    exact ⟨_, encode_of_decode? h hop hi hmnemonic hfields, List.take_prefix _ _⟩
  · rintro w i hw ⟨rest, rfl⟩ hi
    obtain ⟨j, hj, hwidth, _, _⟩ := exists_decode?_of_encode h hop hw rest
    obtain rfl : j = i := by simpa [hj] using hi
    exact ⟨by rw [hwidth, List.take_left], hwidth.symm⟩

end OfLine

/-- A store through a label, with a byte behind it. -/
theorem encode_isPrefix_iff_decode_store :
    let r : Resolver := fun name => if name = "x" then some 42 else none
    let s : Statement := ⟨⟨none, "MOV", some "[#x]", some "A", none⟩,
      [⟨.immediate (.label "x"), true⟩, ⟨.register .a, false⟩]⟩
    ofLine ⟨none, "MOV", some "[#x]", some "A", none⟩ = .ok s ∧
      ∃ w, s.encode r = .ok w ∧ w <+: [0xB0, 42, 7] := by
  intro r s
  have h : ofLine ⟨none, "MOV", some "[#x]", some "A", none⟩ = .ok s := by rfl
  refine ⟨h, (encode_isPrefix_iff_decode h (by decide) r [0xB0, 42, 7]).1.mpr
    ⟨⟨⟨.mov, some ⟨.pc, true⟩, some ⟨.a, false⟩⟩, 2, some 42⟩, by rfl, by rfl, ?_⟩⟩
  exact .cons ⟨rfl, rfl, 42, rfl, rfl⟩ (.cons ⟨rfl, rfl⟩ .nil)

end Statement

end Breadboard
