import Breadboard.Proofs.Reachable
import Breadboard.Proofs.SweepTiling

/-! Sweeps of machine code. A sweep is not told where the instructions begin, but an encoding is read
back with its own length whatever comes behind it. So a sweep of a program's machine code goes in step
with the program's lines, and finds the ones that have bytes. -/

set_option autoImplicit false

namespace Breadboard

open Measured

section Rows
variable {byte : UInt8} {rest : List UInt8}

theorem sweepFrom_of_decode?_eq_none (h : Instr.decode? (byte :: rest) = none) (address : Nat) :
    sweepFrom address (byte :: rest) = ⟨address, [byte], none⟩ :: sweepFrom (address + 1) rest := by
  rw [sweepFrom, h]

theorem sweepFrom_of_decode?_eq_some {i : Instr} (h : Instr.decode? (byte :: rest) = some i)
    (address : Nat) : sweepFrom address (byte :: rest) =
      ⟨address, byte :: rest.take (i.width - 1), some i⟩ ::
        sweepFrom (address + i.width) (rest.drop (i.width - 1)) := by
  rw [sweepFrom, h]

end Rows

theorem sweepFrom_append {w rest : List UInt8} {i : Instr} (h : Instr.decode? (w ++ rest) = some i)
    (hwidth : i.width = w.length) (address : Nat) : sweepFrom address (w ++ rest) =
      ⟨address, w, some i⟩ :: sweepFrom (address + w.length) rest := by
  have hpos := (Instr.width_of_decode? h).1
  cases w with
  | nil => simp [hwidth] at hpos
  | cons byte w =>
    have hone : i.width - 1 = w.length := by simp [hwidth]
    rw [List.cons_append] at h ⊢
    rw [sweepFrom_of_decode?_eq_some h, hone, List.take_left, List.drop_left, hwidth]

/-- A row of a sweep shows a line of a program: its address and its bytes, and the operation and the
operands that were written there, with addresses in place of labels. -/
structure Shows (p : Program) (placed : Placed) (row : SweepRow) : Prop where
  address_eq : row.address = placed.address
  encode_eq : p.encode placed = .ok row.bytes
  length_eq : row.bytes.length = placed.length
  decoded : row.instr.isSome
  text : ∃ op resolved, Op.ofMnemonic? placed.statement.line.opcode = some op ∧
    row.family = some op.family ∧
    placed.statement.operands.Forall₂ (fun o v => o.resolve? p.labels.find? = some v) resolved ∧
    row.text = op.textWith resolved

theorem Measured.exists_shows {p : Program} {m : Measured} {w : List UInt8}
    (h : m.statement.encode p.labels.find? = .ok w) (hpos : 0 < m.length) (address : Nat)
    (rest : List UInt8) : ∃ row, sweepFrom address (w ++ rest) =
      row :: sweepFrom (address + m.length) rest ∧
      Shows p ⟨address, m.length, m.statement⟩ row := by
  have hlength := Statement.length_of_encode m.length_eq h
  have hencode := h
  rw [Statement.encode_eq] at h
  obtain ⟨e, he, hw⟩ := Except.bind_eq_ok_iff.mp h
  cases e with
  | none =>
    have hempty := m.length_eq_zero_iff.mpr (Statement.encoding_eq_none_iff.mp he)
    omega
  | some e =>
    obtain ⟨_, op, hop, hof⟩ := Statement.encoding_eq_some he
    obtain ⟨i, hi, rfl, hwidth, hoperands⟩ :=
      Instr.exists_decode?_of (Statement.named_of_ofLine m.ofLine_eq) hof hw rest
    refine ⟨⟨address, w, some i⟩, ?_, rfl, Program.encode_eq_ok_iff.mpr hencode, hlength, rfl,
      i.op, i.operands, hop, rfl, hoperands, Instr.text_of_decode? hi⟩
    rw [sweepFrom_append hi hwidth, hlength]

theorem Measured.forall₂_shows {p : Program} {ms : List Measured} {codes : List (List UInt8)}
    (h : ms.Forall₂ (fun m w => m.statement.encode p.labels.find? = .ok w) codes) (address : Nat) :
    ((placedFrom address ms).filter (0 < ·.length)).Forall₂ (Shows p)
      (sweepFrom address codes.flatten) := by
  induction h generalizing address with
  | nil =>
    rw [List.flatten_nil, sweepFrom]
    exact .nil
  | @cons m w ms codes hm _ ih =>
    unfold placedFrom
    rw [List.flatten_cons]
    rcases Nat.eq_zero_or_pos m.length with hzero | hpos
    · have hnil : w = [] := by
        rw [← List.length_eq_zero_iff, Statement.length_of_encode m.length_eq hm, hzero]
      rw [List.filter_cons_of_neg (by simp [hzero]), hnil, List.nil_append, hzero]
      exact ih address
    · obtain ⟨row, hsweep, hshows⟩ := exists_shows hm hpos address codes.flatten
      rw [List.filter_cons_of_pos (by simpa using hpos), hsweep]
      exact .cons hshows (ih _)

/-- A sweep of the machine code of a reachable program has one row for each line with bytes. -/
theorem Program.sweep_machineCode_run (config : Config) (rs : List Request) {bytes : List UInt8}
    (h : (run config rs).machineCode = .ok bytes) :
    ((run config rs).lines.filter (0 < ·.length)).Forall₂ (Shows (run config rs))
      (sweep bytes) := by
  obtain ⟨ms, _, hrun, _⟩ := exists_run_eq_ofMeasured config rs
  rw [hrun] at h ⊢
  obtain ⟨codes, hcodes, rfl⟩ := (machineCode_ofMeasured_eq_ok_iff config ms bytes).mp h
  rw [lines_ofMeasured, placed_eq_placedFrom]
  exact forall₂_shows hcodes 0

/-- A loop that jumps back to a label, with a line in it that has no bytes. -/
theorem Program.sweep_machineCode_run_loop :
    let p := run {} [.source "loop: MOV A, [42]", .source "; wait", .source "JMP #loop"]
    p.machineCode = .ok [135, 42, 238, 0] ∧
      (p.lines.filter (0 < ·.length)).Forall₂ (Shows p) (sweep [135, 42, 238, 0]) ∧
      (sweep [135, 42, 238, 0]).map SweepRow.text = ["MOV A, [42]", "JMP 0"] := by
  intro p
  have hcode : p.machineCode = .ok [135, 42, 238, 0] := by rfl
  have hmove : sweep [135, 42, 238, 0] =
      ⟨0, [135, 42], some ⟨⟨.mov, some ⟨.a, false⟩, some ⟨.pc, true⟩⟩, 2, some 42⟩⟩ ::
        sweepFrom 2 [238, 0] :=
    sweepFrom_append (w := [135, 42]) rfl rfl 0
  have hjump : sweepFrom 2 [238, 0] =
      ⟨2, [238, 0], some ⟨⟨.jmp, none, some ⟨.pc, false⟩⟩, 2, some 0⟩⟩ :: sweepFrom 4 [] :=
    sweepFrom_append (w := [238, 0]) rfl rfl 2
  refine ⟨hcode, sweep_machineCode_run {} _ hcode, ?_⟩
  rw [hmove, hjump, sweepFrom]
  decide

end Breadboard
