import Breadboard.Proofs.Reachable

/-! Emitting machine code. A statement is measured with every label at zero when it is placed, and
encoded with the labels as they are then when the machine code is asked for. The two agree in all but
the labels: a line of a reachable program encodes to as many bytes as were kept for it, or it uses a
label that is not bound. So a program either has machine code of its own size, or the first line with
such a label is at fault. -/

set_option autoImplicit false

namespace Breadboard

open Measured

theorem Measured.length_eq_of_mem_placed {ms : List Measured} {l : Placed} (h : l ∈ placed ms) :
    l.statement.length = .ok l.length := by
  obtain ⟨i, m, _, rfl⟩ := mem_placed_iff.mp h
  exact m.length_eq

namespace Program

def Resolves (p : Program) (l : Placed) : Prop :=
  l.statement.line.opcode ≠ "" → ∀ name ∈ l.statement.labels, (p.labels.find? name).isSome

instance (p : Program) (l : Placed) : Decidable (p.Resolves l) :=
  inferInstanceAs (Decidable (l.statement.line.opcode ≠ "" →
    ∀ name ∈ l.statement.labels, (p.labels.find? name).isSome))

section Placed
variable {p : Program} {l : Placed} (h : l.statement.length = .ok l.length)
include h

theorem exists_encode_iff_resolves : (∃ w, p.encode l = .ok w) ↔ p.Resolves l := by
  simp only [encode_eq_ok_iff, Statement.exists_encode_iff h, Line.isEmpty_eq_false_iff]
  rfl

theorem length_of_encode {w : List UInt8} (hw : p.encode l = .ok w) : w.length = l.length :=
  Statement.length_of_encode h (encode_eq_ok_iff.mp hw)

theorem encode_eq_error_iff {e : AssemblyError} : p.encode l = .error e ↔
    l.statement.line.opcode ≠ "" ∧ ∃ name ∈ l.statement.labels,
      p.labels.find? name = none ∧ e = .unresolvedLabel name l.address := by
  rw [← Line.isEmpty_eq_false_iff]
  constructor
  · intro he
    cases hs : l.statement.encode p.labels.find? with
    | ok w => simp [encode, hs] at he
    | error fault =>
      obtain ⟨hop, name, hname, hnone, rfl⟩ := (Statement.encode_eq_error_iff h).mp hs
      obtain rfl : .unresolvedLabel name l.address = e := by simpa [encode, hs] using he
      exact ⟨hop, name, hname, hnone, rfl⟩
  · rintro ⟨hop, name, hname, hnone, rfl⟩
    have hs := (Statement.encode_eq_error_iff h).mpr ⟨hop, name, hname, hnone, rfl⟩
    simp [encode, hs]

end Placed

section Lines
variable {p : Program} (h : ∀ l ∈ p.lines, l.statement.length = .ok l.length)
include h

theorem exists_machineCode_iff_resolves :
    (∃ bytes, p.machineCode = .ok bytes) ↔ ∀ l ∈ p.lines, p.Resolves l := by
  unfold machineCode
  rw [Except.exists_map_eq_ok_iff, Except.exists_mapM_eq_ok_iff]
  exact forall₂_congr fun l hl => exists_encode_iff_resolves (h l hl)

theorem length_of_machineCode {bytes : List UInt8} (hbytes : p.machineCode = .ok bytes) :
    bytes.length = (p.lines.map Placed.length).sum := by
  obtain ⟨codes, hcodes, rfl⟩ := Except.map_eq_ok_iff.mp hbytes
  have hlengths : codes.map List.length = p.lines.map Placed.length :=
    Except.map_eq_of_mapM hcodes fun l hl _ hw => length_of_encode (h l hl) hw
  rw [List.length_flatten, hlengths]

theorem machineCode_eq_error_iff {e : AssemblyError} : p.machineCode = .error e ↔
    ∃ front l back name, p.lines = front ++ l :: back ∧ (∀ k ∈ front, p.Resolves k) ∧
      l.statement.line.opcode ≠ "" ∧ name ∈ l.statement.labels ∧ p.labels.find? name = none ∧
      e = .unresolvedLabel name l.address := by
  rw [machineCode, Except.map_eq_error_iff, Except.mapM_eq_error_iff]
  constructor
  · rintro ⟨front, l, back, hlines, hfront, hl⟩
    rw [hlines, List.forall_mem_append, List.forall_mem_cons] at h
    obtain ⟨hop, name, hname, hnone, he⟩ := (encode_eq_error_iff h.2.1).mp hl
    exact ⟨front, l, back, name, hlines,
      fun k hk => (exists_encode_iff_resolves (h.1 k hk)).mp (hfront k hk), hop, hname, hnone, he⟩
  · rintro ⟨front, l, back, name, hlines, hfront, hop, hname, hnone, he⟩
    rw [hlines, List.forall_mem_append, List.forall_mem_cons] at h
    exact ⟨front, l, back, hlines,
      fun k hk => (exists_encode_iff_resolves (h.1 k hk)).mpr (hfront k hk),
      (encode_eq_error_iff h.2.1).mpr ⟨hop, name, hname, hnone, he⟩⟩

end Lines

/-- A reachable program whose labels are bound has machine code of the size that was kept for it.
Otherwise it has none, and the fault is the first line with a label that is not bound. -/
theorem machineCode_run (config : Config) (rs : List Request) :
    ((∃ bytes, (run config rs).machineCode = .ok bytes) ↔
      ∀ l ∈ (run config rs).lines, (run config rs).Resolves l) ∧
    (∀ bytes, (run config rs).machineCode = .ok bytes → bytes.length = (run config rs).size) ∧
    ∀ e, (run config rs).machineCode = .error e ↔ ∃ front l back name,
      (run config rs).lines = front ++ l :: back ∧ (∀ k ∈ front, (run config rs).Resolves k) ∧
      l.statement.line.opcode ≠ "" ∧ name ∈ l.statement.labels ∧
      (run config rs).labels.find? name = none ∧ e = .unresolvedLabel name l.address := by
  have hsize := (invariant_run config rs).size_eq
  have hlengths : ∀ l ∈ (run config rs).lines, l.statement.length = .ok l.length := by
    obtain ⟨ms, _, hrun, _⟩ := exists_run_eq_ofMeasured config rs
    rw [hrun, lines_ofMeasured]
    exact fun l => length_eq_of_mem_placed
  refine ⟨exists_machineCode_iff_resolves hlengths, fun bytes hbytes => ?_,
    fun e => machineCode_eq_error_iff hlengths⟩
  rw [length_of_machineCode hlengths hbytes, hsize]

/-- A jump to a label that comes after it, without and with the line that declares the label. -/
theorem machineCode_run_forward :
    (run {} [.source "HLT", .source "JMP #end"]).machineCode = .error (.unresolvedLabel "end" 1) ∧
      ∃ bytes, (run {} [.source "HLT", .source "JMP #end", .source "end:"]).machineCode = .ok bytes ∧
        bytes.length = 3 := by
  have hjump := machineCode_run {} [.source "HLT", .source "JMP #end"]
  have hend := machineCode_run {} [.source "HLT", .source "JMP #end", .source "end:"]
  refine ⟨(hjump.2.2 _).mpr ⟨[_], _, [], "end", by rfl, by decide, by decide, by decide, rfl, rfl⟩, ?_⟩
  obtain ⟨bytes, hbytes⟩ := hend.1.mpr (by decide)
  exact ⟨bytes, hbytes, hend.2.1 bytes hbytes⟩

end Program

end Breadboard
