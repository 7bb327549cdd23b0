import Breadboard.Proofs.Assembly
import Breadboard.Proofs.HexNumeral
import Breadboard.Proofs.SweepText

/-! Assembling the text of a sweep. If each row has an instruction and there is room for all of them,
this gives back the bytes of the sweep. Otherwise the rows without an instruction are reported, and
nothing else is. -/

set_option autoImplicit false

namespace Breadboard

open Measured

theorem SweepRow.Reads.length_eq {row : SweepRow} {m : Measured} (h : row.Reads m) :
    m.length = row.bytes.length :=
  (Statement.length_of_encode m.length_eq (h.encode_eq .zero)).symm

section Reads
variable {rows : List SweepRow} {ms : List Measured} (h : rows.Forall₂ SweepRow.Reads ms)
include h

theorem read_of_reads : Read (rows.map SweepRow.text) ms := by
  unfold Read
  rw [List.forall₂_map_left_iff]
  exact h.imp fun _ _ hr => hr.parse_eq

theorem encode_of_reads (r : Resolver) :
    ms.Forall₂ (fun m w => m.statement.encode r = .ok w) (rows.map SweepRow.bytes) := by
  rw [List.forall₂_map_right_iff]
  exact h.flip.imp fun _ _ hr => hr.encode_eq r

theorem total_of_reads : total ms = (rows.flatMap SweepRow.bytes).length := by
  induction h with
  | nil => rfl
  | @cons row m rows ms hr _ ih =>
    rw [List.flatMap_cons, List.length_append, ← ih]
    simp [total, hr.length_eq]

theorem labels_of_reads : ∀ m ∈ ms, m.label = none ∧ m.statement.labels = [] := by
  intro m hm
  obtain ⟨row, _, hr⟩ := Except.exists_of_forall₂ h.flip m hm
  exact ⟨hr.label_eq, hr.labels_eq⟩

end Reads

theorem exists_reads_of_isSome {rows : List SweepRow} (h : ∀ row ∈ rows, row.Proper)
    (hsome : ∀ row ∈ rows, row.family.isSome) : ∃ ms, rows.Forall₂ SweepRow.Reads ms := by
  induction rows with
  | nil => exact ⟨[], .nil⟩
  | cons row rows ih =>
    rw [List.forall_mem_cons] at h hsome
    obtain ⟨ms, hms⟩ := ih h.2 hsome.2
    cases h.1 with
    | byte address b => exact absurd hsome.1 (by simp [SweepRow.family])
    | instr address hdecode hwidth =>
      obtain ⟨m, hm⟩ := SweepRow.exists_reads address hdecode hwidth
      exact ⟨m :: ms, .cons hm hms⟩

theorem isSome_of_read {rows : List SweepRow} (h : ∀ row ∈ rows, row.Proper) {ms : List Measured}
    (hread : Read (rows.map SweepRow.text) ms) : ∀ row ∈ rows, row.family.isSome := by
  unfold Read at hread
  induction rows generalizing ms with
  | nil => simp
  | cons row rows ih =>
    obtain ⟨m, ms, hm, hms, rfl⟩ := List.forall₂_cons_left_iff.mp hread
    rw [List.forall_mem_cons] at h ⊢
    refine ⟨?_, ih h.2 hms⟩
    cases h.1 with
    | byte address b =>
      rw [SweepRow.parse_byte] at hm
      cases hm
    | instr address hdecode hwidth => rfl

/-- The text of a sweep assembles exactly if each row has an instruction and the bytes fit in, and
then to these bytes. -/
theorem assemble_sweepSource_eq_ok_iff {bytes : List UInt8} {config : Config} {p : Program} :
    assemble (sweepSource (sweep bytes)) config = .ok p ↔
      ∃ ms, (sweep bytes).Forall₂ SweepRow.Reads ms ∧ bytes.length ≤ 256 ∧
        p = .ofMeasured config ms := by
  have hproper := proper_sweepFrom 0 bytes
  have htotal {ms : List Measured} (h : (sweep bytes).Forall₂ SweepRow.Reads ms) :
      total ms = bytes.length := by
    rw [total_of_reads h, sweep, flatMap_sweepFrom]
  unfold assemble
  rw [lines_sweepSource, assembleLines_eq_ok_iff]
  constructor
  · rintro ⟨ns, hread, hfit, _, rfl⟩
    obtain ⟨ms, hms⟩ := exists_reads_of_isSome hproper (isSome_of_read hproper hread)
    obtain rfl := (read_of_reads hms).unique hread
    exact ⟨ms, hms, by rw [← htotal hms]; exact hfit.total_le, rfl⟩
  · rintro ⟨ms, hms, hle, rfl⟩
    have hlabels := labels_of_reads hms
    refine ⟨ms, read_of_reads hms, ⟨?_, fun i m hi hm => ?_, Or.inr ?_⟩, fun m hm _ => ?_, rfl⟩
    · rwa [htotal hms]
    · rw [(hlabels m (List.mem_of_getElem? hi)).1] at hm
      cases hm
    · rw [List.filterMap_eq_nil_iff.mpr fun m hm => (hlabels m hm).1]
      exact List.nodup_nil
    · rw [(hlabels m hm).2]
      simp

/-- The report of a row without an instruction: its number, and its one byte as a literal, by the two
digits. -/
def SweepRow.Reported (row : SweepRow × Nat) (e : LineError) : Prop :=
  ∃ b high low, row.1.bytes = [b] ∧ Text.hexDigits[b.toNat / 16]? = some high ∧
    Text.hexDigits[b.toNat % 16]? = some low ∧
    e = ⟨row.2, .parse (.invalidLiteral (String.ofList ['0', 'x', high, low]))⟩

theorem SweepRow.reported_byte {row : SweepRow} {b : UInt8} (h : row.bytes = [b]) (n : Nat) :
    Reported (row, n) ⟨n, .parse (.invalidLiteral (Text.address b.toNat))⟩ := by
  obtain ⟨high, low, hhigh, hlow, haddress⟩ := Text.exists_address b
  exact ⟨b, high, low, h, hhigh, hlow, by rw [haddress]⟩

theorem Program.addSource_reads {p : Program} {row : SweepRow} {m : Measured} (h : row.Reads m)
    (hsize : p.size + row.bytes.length ≤ addressSpace) :
    p.addSource row.text = .ok (p.extend m) := by
  rw [← h.length_eq] at hsize
  exact addSource_eq_ok_iff.mpr ⟨m, h.parse_eq, ⟨hsize, by simp [h.label_eq]⟩, rfl⟩

section Faults
variable {rows : List SweepRow} (h : ∀ row ∈ rows, row.Proper)
include h

theorem forall₂_reported (p : Program) (n : Nat)
    (hsize : p.size + (rows.flatMap SweepRow.bytes).length ≤ addressSpace) :
    ((rows.zipIdx n).filter (·.1.family.isNone)).Forall₂ SweepRow.Reported
      (p.faults n (rows.map SweepRow.text)) := by
  induction rows generalizing p n with
  | nil => exact .nil
  | cons row rows ih =>
    rw [List.forall_mem_cons] at h
    rw [List.flatMap_cons, List.length_append] at hsize
    rw [List.zipIdx_cons, List.map_cons]
    unfold Program.faults
    cases h.1 with
    | byte address b =>
      rw [List.filter_cons_of_pos (by rfl), SweepRow.addSource_byte]
      exact .cons (SweepRow.reported_byte rfl n) (ih h.2 p (n + 1) (by omega))
    | instr address hdecode hwidth =>
      obtain ⟨m, hm⟩ := SweepRow.exists_reads address hdecode hwidth
      have hlength := hm.length_eq
      rw [List.filter_cons_of_neg (by simp [SweepRow.family]), Program.addSource_reads hm (by omega)]
      exact ih h.2 _ (n + 1) (by simp only [Program.extend]; omega)

theorem exists_encode_takeAll (p : Program)
    (hp : ∀ l ∈ p.lines, ∀ r, ∃ w, l.statement.encode r = .ok w)
    (hsize : p.size + (rows.flatMap SweepRow.bytes).length ≤ addressSpace) :
    ∀ l ∈ (p.takeAll (rows.map SweepRow.text)).lines, ∀ r, ∃ w, l.statement.encode r = .ok w := by
  induction rows generalizing p with
  | nil => exact hp
  | cons row rows ih =>
    rw [List.forall_mem_cons] at h
    rw [List.flatMap_cons, List.length_append] at hsize
    rw [List.map_cons]
    cases h.1 with
    | byte address b =>
      rw [Program.takeAll_cons_of_error (SweepRow.addSource_byte p address b)]
      exact ih h.2 p hp (by omega)
    | instr address hdecode hwidth =>
      obtain ⟨m, hm⟩ := SweepRow.exists_reads address hdecode hwidth
      have hlength := hm.length_eq
      rw [Program.takeAll_cons_of_ok (Program.addSource_reads hm (by omega))]
      refine ih h.2 _ (fun l hl => ?_) (by simp only [Program.extend]; omega)
      rcases List.mem_append.mp hl with hl | hl
      · exact hp l hl
      · rw [List.mem_singleton.mp hl]
        exact fun r => ⟨_, hm.encode_eq r⟩

end Faults

/-- Without `failFast`, the text of a sweep that fits in but has rows without an instruction is
answered with these rows. -/
theorem assemble_sweepSource_eq_error {bytes : List UInt8} {config : Config}
    (hle : bytes.length ≤ 256) (hnone : ∃ row ∈ sweep bytes, row.family = none)
    (hoff : config.failFast = false) :
    ∃ errors, assemble (sweepSource (sweep bytes)) config = .error errors ∧
      (((sweep bytes).zipIdx 1).filter (·.1.family.isNone)).Forall₂ SweepRow.Reported errors := by
  have hproper := proper_sweepFrom 0 bytes
  have hsize : (Program.empty config).size + ((sweep bytes).flatMap SweepRow.bytes).length ≤
      addressSpace := by
    rw [sweep, flatMap_sweepFrom]
    exact (Nat.zero_add _).trans_le hle
  have hencode := exists_encode_takeAll hproper (Program.empty config) (by simp [Program.empty]) hsize
  have hunresolved := (Program.unresolved_eq_nil_iff (Program.length_lines_takeAll_empty config 1
    ((sweep bytes).map SweepRow.text))).mpr fun l hl =>
      (hencode l hl _).imp fun _ hw => Program.encode_eq_ok_iff.mpr hw
  refine ⟨Program.report config ((sweep bytes).map SweepRow.text), ?_, ?_⟩
  · have hok : ¬ ∃ p, assemble (sweepSource (sweep bytes)) config = .ok p := by
      rintro ⟨p, hp⟩
      obtain ⟨ms, hms, _⟩ := assemble_sweepSource_eq_ok_iff.mp hp
      obtain ⟨row, hrow, hfamily⟩ := hnone
      simpa [hfamily] using isSome_of_read hproper (read_of_reads hms) row hrow
    unfold assemble at hok ⊢
    rw [lines_sweepSource, assembleLines_eq] at hok ⊢
    split at hok
    · exact absurd ⟨_, rfl⟩ hok
    · next hreport => rw [if_neg hreport, hoff]; rfl
  · unfold Program.report
    rw [hunresolved, List.append_nil]
    exact forall₂_reported hproper _ 1 hsize

/-- Assembling the text of a sweep gives the bytes back exactly if they make instructions and fit
in. -/
theorem assemble_sweepSource (bytes : List UInt8) (config : Config) :
    ((∃ p, assemble (sweepSource (sweep bytes)) config = .ok p) ↔
      (∀ row ∈ sweep bytes, row.family.isSome) ∧ bytes.length ≤ 256) ∧
    (∀ p, assemble (sweepSource (sweep bytes)) config = .ok p →
      p.machineCode = .ok bytes ∧ p.labels = .empty) ∧
    (bytes.length ≤ 256 → (∃ row ∈ sweep bytes, row.family = none) → config.failFast = false →
      ∃ errors, assemble (sweepSource (sweep bytes)) config = .error errors ∧
        (((sweep bytes).zipIdx 1).filter (·.1.family.isNone)).Forall₂ (fun row e =>
          ∃ b high low, row.1.bytes = [b] ∧ Text.hexDigits[b.toNat / 16]? = some high ∧
            Text.hexDigits[b.toNat % 16]? = some low ∧
            e = ⟨row.2, .parse (.invalidLiteral (String.ofList ['0', 'x', high, low]))⟩) errors) := by
  have hproper := proper_sweepFrom 0 bytes
  refine ⟨?_, fun p hp => ?_, assemble_sweepSource_eq_error⟩
  · simp only [assemble_sweepSource_eq_ok_iff]
    constructor
    · rintro ⟨p, ms, hms, hle, _⟩
      exact ⟨isSome_of_read hproper (read_of_reads hms), hle⟩
    · rintro ⟨hsome, hle⟩
      obtain ⟨ms, hms⟩ := exists_reads_of_isSome hproper hsome
      exact ⟨_, ms, hms, hle, rfl⟩
  · obtain ⟨ms, hms, _, rfl⟩ := assemble_sweepSource_eq_ok_iff.mp hp
    refine ⟨(Program.machineCode_ofMeasured_eq_ok_iff config ms bytes).mpr
      ⟨_, encode_of_reads hms _, ?_⟩, Program.labels_ofMeasured config fun m hm =>
        (labels_of_reads hms m hm).1⟩
    rw [← List.flatMap_def, sweep, flatMap_sweepFrom]

/-- A byte that starts an instruction, and one behind it that does not. -/
theorem assemble_sweepSource_halt :
    (∃ p, assemble (sweepSource (sweep [0xF9])) {} = .ok p ∧ p.machineCode = .ok [0xF9] ∧
      p.labels = .empty) ∧
    assemble (sweepSource (sweep [0xF9, 0x60])) {} =
      .error [⟨2, .parse (.invalidLiteral "0x60")⟩] := by
  have hhlt (rest : List UInt8) : sweep (0xF9 :: rest) =
      ⟨0, [0xF9], some ⟨⟨.hlt, none, none⟩, 1, none⟩⟩ :: sweepFrom 1 rest :=
    sweepFrom_append (w := [0xF9]) rfl rfl 0
  have hbyte : sweepFrom 1 [0x60] = [⟨1, [0x60], none⟩] := by
    rw [sweepFrom_of_decode?_eq_none rfl, sweepFrom]
  have hone := assemble_sweepSource [0xF9] {}
  have htwo := assemble_sweepSource [0xF9, 0x60] {}
  constructor
  · obtain ⟨p, hp⟩ := hone.1.mpr ⟨by rw [hhlt, sweepFrom]; simp [SweepRow.family], by decide⟩
    exact ⟨p, hp, hone.2.1 p hp⟩
  · obtain ⟨errors, herrors, hreported⟩ := htwo.2.2 (by decide)
      ⟨⟨1, [0x60], none⟩, by rw [hhlt, hbyte]; simp, rfl⟩ rfl
    have hrows : ((sweep [0xF9, 0x60]).zipIdx 1).filter (·.1.family.isNone) =
        [(⟨1, [0x60], none⟩, 2)] := by
      rw [hhlt, hbyte]
      rfl
    rw [hrows] at hreported
    obtain ⟨e, _, ⟨b, high, low, hb, hhigh, hlow, rfl⟩, hnil, rfl⟩ :=
      List.forall₂_cons_left_iff.mp hreported
    cases hnil
    cases hb
    cases hhigh
    cases hlow
    exact herrors

end Breadboard
