import Breadboard.Proofs.LineText
import Breadboard.Proofs.SweepCode

/-! The text of a sweep. A row with an instruction is a line that is read as this instruction and
encodes to the bytes of the row. A row without one is a line with an operand that cannot be read. -/

set_option autoImplicit false

namespace Breadboard

open Measured

namespace Line

theorem Plain.of_isAlphanum {s : String} (hne : s ≠ "") (h : ∀ c ∈ s.toList, c.isAlphanum = true) :
    Plain s := by
  refine ⟨hne, fun c hc => ⟨?_, ?_⟩⟩
  · by_contra hsep
    simp only [isSeparator, isWhite, Bool.not_eq_false, Bool.or_eq_true, beq_iff_eq] at hsep
    rcases hsep with ((((rfl | rfl) | rfl) | rfl) | rfl) | rfl <;> cases h _ hc
  · rintro rfl
    cases h _ hc

theorem Plain.brackets {s : String} (h : Plain s) : Plain ("[" ++ s ++ "]") := by
  refine ⟨by simp, fun c hc => ?_⟩
  simp only [String.toList_append, List.mem_append] at hc
  rcases hc with (hc | hc) | hc
  · obtain rfl : c = '[' := by simpa using hc
    decide
  · exact h.free c hc
  · obtain rfl : c = ']' := by simpa using hc
    decide

end Line

theorem Op.plain_mnemonic (op : Op) : Line.Plain op.mnemonic := by
  refine .of_isAlphanum ?_ (List.all_eq_true.mp ?_) <;> cases op <;> decide

theorem Register.plain_name (r : Register) : Line.Plain r.name := by
  refine .of_isAlphanum ?_ (List.all_eq_true.mp ?_) <;> cases r <;> decide

namespace Field

theorem plain_render_operand (v : UInt8) (f : Field) : Line.Plain (f.operand v).render := by
  have hatom : Line.Plain (f.operand v).atom.render := by
    unfold operand
    split
    · refine .of_isAlphanum ?_ fun c hc => ?_
      · simp [Atom.render, Immediate.render, Text.decimal, Nat.toDigits_ne_nil]
      · simp only [Atom.render, Immediate.render, Text.decimal, String.toList_ofList] at hc
        simp [Char.isAlphanum, Nat.isDigit_of_mem_toDigits (by decide) (by decide) hc]
    · exact f.register.plain_name
  unfold Operand.render
  split
  · exact hatom.brackets
  · exact hatom

theorem canonical_operand (v : UInt8) (f : Field) : (f.operand v).Canonical := by
  obtain ⟨r, i⟩ := f
  cases r <;> simp [Operand.Canonical, operand, fetches]

theorem label?_operand (v : UInt8) (f : Field) : (f.operand v).label? = none := by
  obtain ⟨r, i⟩ := f
  cases r <;> rfl

end Field

namespace Instr

def line (i : Instr) : Line where
  label := none
  opcode := i.op.mnemonic
  first := i.operands[0]?.map Operand.render
  second := i.operands[1]?.map Operand.render
  comment := none

theorem exists_of_mem_operands {i : Instr} {o : Operand} (h : o ∈ i.operands) :
    ∃ v f, o = Field.operand v f := by
  obtain ⟨f, _, rfl⟩ := List.mem_map.mp h
  exact ⟨_, f, rfl⟩

theorem length_operands_le_two (i : Instr) : i.operands.length ≤ 2 := by
  obtain ⟨⟨op, dest, src⟩, width, imm⟩ := i
  cases dest <;> cases src <;> simp [operands, Head.fields]

theorem params_line (i : Instr) : i.line.params = i.operands.map Operand.render := by
  have hlength := i.length_operands_le_two
  unfold line Line.params
  generalize i.operands = os at hlength
  rcases os with _ | ⟨a, _ | ⟨b, _ | ⟨c, os⟩⟩⟩
  · rfl
  · rfl
  · rfl
  · simp at hlength

theorem isEmpty_line (i : Instr) : i.line.isEmpty = false := by
  simpa [Line.isEmpty, line] using i.op.plain_mnemonic.ne_empty

theorem render_line (i : Instr) : i.line.render = i.op.textWith i.operands := by
  have hlength := i.length_operands_le_two
  unfold Line.render
  rw [i.isEmpty_line]
  unfold line Op.textWith Line.renderCode
  generalize i.operands = os at hlength
  rcases os with _ | ⟨a, _ | ⟨b, _ | ⟨c, os⟩⟩⟩
  · simp
  · simp
  · simp [String.append_assoc]
  · simp at hlength

theorem canonical_line (i : Instr) : i.line.Canonical := by
  refine Line.canonical_of_plain rfl ?_ fun s hs => ?_
  · cases h : i.operands <;> simp [line, h]
  · rw [params_line] at hs
    rcases List.mem_cons.mp hs with rfl | hs
    · exact i.op.plain_mnemonic
    · obtain ⟨o, ho, rfl⟩ := List.mem_map.mp hs
      obtain ⟨v, f, rfl⟩ := exists_of_mem_operands ho
      exact f.plain_render_operand v

theorem ofLine_line (i : Instr) : Statement.ofLine i.line = .ok ⟨i.line, i.operands⟩ := by
  refine Except.map_eq_ok_iff.mpr ⟨i.operands, ?_, rfl⟩
  have hparams : i.line.first.toList ++ i.line.second.toList = _ := i.params_line
  rw [hparams, Except.mapM_eq_ok_iff, List.forall₂_map_left_iff, List.forall₂_same]
  intro o ho
  obtain ⟨v, f, rfl⟩ := exists_of_mem_operands ho
  exact Operand.parse_render (f.canonical_operand v)

end Instr

theorem Measured.exists_of_decode? {bytes : List UInt8} {i : Instr}
    (h : Instr.decode? bytes = some i) : ∃ m : Measured, m.statement = ⟨i.line, i.operands⟩ ∧
      Statement.parse i.text = .ok m.statement ∧ m.length = i.width ∧
      ∀ r, m.statement.encode r = .ok (bytes.take i.width) := by
  obtain ⟨e, he, hbytes⟩ := Instr.exists_of_decode? h
  have hencode (r : Resolver) :
      Statement.encode r ⟨i.line, i.operands⟩ = .ok (bytes.take i.width) := by
    have hmnemonic : Op.ofMnemonic? i.line.opcode = some i.op :=
      Op.ofMnemonic?_eq_some_iff.mpr rfl
    simp [Statement.encode, i.isEmpty_line, hmnemonic, he, Except.bind, hbytes]
  have hwidth := (Instr.width_of_decode? h).2
  refine ⟨⟨⟨i.line, i.operands⟩, i.width, i.ofLine_line, ?_⟩, rfl, ?_, rfl, hencode⟩
  · unfold Statement.length
    rw [hencode]
    simpa [Except.map] using hwidth
  · refine Statement.parse_eq_ok_iff.mpr ⟨i.line, ?_, i.ofLine_line⟩
    rw [Instr.text_of_decode? h, ← i.render_line]
    exact i.canonical_line.parse_render

/-- A row is read as a statement that encodes to its bytes, wherever labels are. -/
structure SweepRow.Reads (row : SweepRow) (m : Measured) : Prop where
  parse_eq : Statement.parse row.text = .ok m.statement
  label_eq : m.label = none
  labels_eq : m.statement.labels = []
  encode_eq : ∀ r, m.statement.encode r = .ok row.bytes

/-- What a row of a sweep can be: a byte that starts no instruction, or an instruction. -/
inductive SweepRow.Proper : SweepRow → Prop
  | byte (address : Nat) (b : UInt8) : Proper ⟨address, [b], none⟩
  | instr (address : Nat) {w rest : List UInt8} {i : Instr} (h : Instr.decode? (w ++ rest) = some i)
      (hwidth : i.width = w.length) : Proper ⟨address, w, some i⟩

theorem Sweep.Tiles.proper {address : Nat} {bytes : List UInt8} {rows : List SweepRow}
    (h : Tiles address bytes rows) : ∀ row ∈ rows, row.Proper := by
  induction h with
  | nil => simp
  | @row address w rest instr rows hdecode hlength hrest ih =>
    refine List.forall_mem_cons.mpr ⟨?_, ih⟩
    cases instr with
    | none =>
      obtain ⟨b, rfl⟩ := List.length_eq_one_iff.mp hlength
      exact .byte address b
    | some i => exact .instr address hdecode hlength.symm

theorem proper_sweepFrom (address : Nat) (bytes : List UInt8) :
    ∀ row ∈ sweepFrom address bytes, row.Proper := (Sweep.tiles_sweepFrom address bytes).proper

namespace SweepRow

def unknownLine (b : UInt8) : Line := ⟨none, "??", some (Text.address b.toNat), none, none⟩

theorem canonical_unknownLine (b : UInt8) : (unknownLine b).Canonical := by
  refine Line.canonical_of_plain rfl (by simp [unknownLine]) fun s hs => ?_
  rcases List.mem_cons.mp hs with rfl | hs
  · have hmark : Line.Plain "??" := ⟨by decide, by simp [Line.isSeparator, Line.isWhite]⟩
    exact hmark
  · obtain rfl : s = Text.address b.toNat := by simpa [Line.params, unknownLine] using hs
    exact .of_isAlphanum (by simp [Text.address]) fun c hc => Text.isAlphanum_of_mem_address hc

theorem text_byte (address : Nat) (b : UInt8) :
    text ⟨address, [b], none⟩ = (unknownLine b).render := by
  simp [text, unknownLine, Line.render, Line.renderCode, Line.isEmpty]

theorem parse_unknownLine (b : UInt8) : Line.parse (unknownLine b).render = .ok (unknownLine b) :=
  (canonical_unknownLine b).parse_render

theorem ofLine_unknownLine (b : UInt8) : Statement.ofLine (unknownLine b) =
    .error (.invalidLiteral (Text.address b.toNat)) := by
  refine Except.map_eq_error_iff.mpr ?_
  simp only [unknownLine, Option.toList_some, Option.toList_none, List.append_nil, Except.mapM_cons,
    Operand.parse_address]
  rfl

theorem parse_byte (address : Nat) (b : UInt8) : Statement.parse (text ⟨address, [b], none⟩) =
    .error (.invalidLiteral (Text.address b.toNat)) := by
  unfold Statement.parse
  rw [text_byte, parse_unknownLine]
  exact ofLine_unknownLine b

theorem addSource_byte (p : Program) (address : Nat) (b : UInt8) :
    p.addSource (text ⟨address, [b], none⟩) =
      .error (.parse (.invalidLiteral (Text.address b.toNat))) := by
  unfold Program.addSource Program.add
  rw [text_byte, parse_unknownLine]
  simp only [ofLine_unknownLine]

theorem exists_reads (address : Nat) {w rest : List UInt8} {i : Instr}
    (h : Instr.decode? (w ++ rest) = some i) (hwidth : i.width = w.length) :
    ∃ m, Reads ⟨address, w, some i⟩ m := by
  obtain ⟨m, hm, hparse, _, hencode⟩ := Measured.exists_of_decode? h
  rw [hwidth, List.take_left] at hencode
  refine ⟨m, hparse, by simp [label, hm, Instr.line], ?_, hencode⟩
  rw [hm, Statement.labels, List.filterMap_eq_nil_iff]
  intro o ho
  obtain ⟨v, f, rfl⟩ := Instr.exists_of_mem_operands ho
  exact f.label?_operand v

theorem Proper.text_line {row : SweepRow} (h : row.Proper) :
    row.text ≠ "" ∧ Text.Unbroken row.text.toList := by
  cases h with
  | byte address b =>
    have hline := canonical_unknownLine b
    rw [text_byte]
    exact ⟨hline.render_ne_empty (by simp [unknownLine]), hline.unbroken_render rfl⟩
  | @instr address w rest i h hwidth =>
    have hline := i.canonical_line
    have htext : text ⟨address, w, some i⟩ = i.line.render := by
      rw [i.render_line]
      exact Instr.text_of_decode? h
    rw [htext]
    exact ⟨hline.render_ne_empty i.op.plain_mnemonic.ne_empty, hline.unbroken_render rfl⟩

end SweepRow

theorem lines_sweepSource (bytes : List UInt8) :
    Text.lines (sweepSource (sweep bytes)) = (sweep bytes).map SweepRow.text := by
  refine Text.lines_intercalate fun text htext => ?_
  obtain ⟨row, hrow, rfl⟩ := List.mem_map.mp htext
  exact (proper_sweepFrom 0 bytes row hrow).text_line

end Breadboard
