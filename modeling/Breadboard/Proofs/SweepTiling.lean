import Breadboard.Proofs.InstrCodec
import Breadboard.Sweep

/-! Sweeps as tilings. An instruction is one or two bytes wide and never wider than the bytes that are
left, so the rows of a sweep lie one behind the other and cover the bytes. Going by addresses instead,
and giving up where a row would reach beyond the last byte, makes the same rows in at most as many
rounds as there are bytes. -/

set_option autoImplicit false

namespace Breadboard

theorem Instr.width_eq_one_or_two {bytes : List UInt8} {i : Instr} (h : decode? bytes = some i) :
    i.width = 1 ∨ i.width = 2 := by
  cases bytes with
  | nil => cases h
  | cons byte rest =>
    obtain ⟨head, _, ⟨_, rfl⟩ | ⟨_, v, _, rfl⟩⟩ := decode?_cons_eq_some_iff.mp h
    · exact .inl rfl
    · exact .inr rfl

namespace Sweep

def stride (instr : Option Instr) : Nat := instr.elim 1 Instr.width

theorem stride_eq_one_or_two {bytes : List UInt8} {instr : Option Instr}
    (h : Instr.decode? bytes = instr) : stride instr = 1 ∨ stride instr = 2 := by
  cases instr with
  | none => exact .inl rfl
  | some i => exact Instr.width_eq_one_or_two h

/-- Rows that lie one behind the other from `address` on. Each has as many bytes as are decoded there,
or a single one if nothing is. -/
inductive Tiles : Nat → List UInt8 → List SweepRow → Prop
  | nil {address : Nat} : Tiles address [] []
  | row {address : Nat} {w rest : List UInt8} {instr : Option Instr} {rows : List SweepRow}
      (hdecode : Instr.decode? (w ++ rest) = instr) (hlength : w.length = stride instr)
      (hrest : Tiles (address + w.length) rest rows) :
      Tiles address (w ++ rest) (⟨address, w, instr⟩ :: rows)

theorem tiles_sweepFrom (address : Nat) (bytes : List UInt8) :
    Tiles address bytes (sweepFrom address bytes) := by
  fun_induction sweepFrom address bytes with
  | case1 => exact .nil
  | case2 address byte rest h ih => exact .row (w := [byte]) h rfl ih
  | case3 address byte rest i h ih =>
    have hle := (Instr.width_of_decode? h).2
    have hpos := (Instr.width_of_decode? h).1
    have hlength : (byte :: rest.take (i.width - 1)).length = i.width := by
      rw [List.length_cons] at hle
      rw [List.length_cons, List.length_take]
      omega
    have hbytes : byte :: rest = byte :: rest.take (i.width - 1) ++ rest.drop (i.width - 1) := by
      rw [List.cons_append, List.take_append_drop]
    rw [hbytes] at h ⊢
    exact .row h hlength (by rwa [hlength])

section Tiles
variable {address : Nat} {bytes : List UInt8} {rows : List SweepRow} (h : Tiles address bytes rows)
include h

theorem Tiles.flatMap_bytes : rows.flatMap SweepRow.bytes = bytes := by
  induction h with
  | nil => rfl
  | row _ _ _ ih => rw [List.flatMap_cons, ih]

/-- The rows in front of a row fix its address, and the bytes from there on what it shows. -/
theorem Tiles.of_append_cons {front back : List SweepRow} {row : SweepRow}
    (hrows : rows = front ++ row :: back) :
    row.address = address + (front.map fun r => r.bytes.length).sum ∧
      row.bytes.length = stride row.instr ∧
      Instr.decode? (bytes.drop (front.map fun r => r.bytes.length).sum) = row.instr := by
  induction h generalizing front with
  | nil => simp at hrows
  | @row address w rest instr rows hdecode hlength hrest ih =>
    cases front with
    | nil =>
      obtain ⟨rfl, rfl⟩ := List.cons.inj hrows
      exact ⟨rfl, hlength, hdecode⟩
    | cons first front =>
      obtain ⟨rfl, htail⟩ := List.cons.inj hrows
      obtain ⟨haddress, hlength, hinstr⟩ := ih htail
      rw [List.map_cons, List.sum_cons, ← List.drop_drop, List.drop_left]
      exact ⟨by rw [haddress, Nat.add_assoc], hlength, hinstr⟩

end Tiles

/-- The bytes from `start` up to `stop`, or `none` if `stop` is beyond the last one. -/
def slice? (bytes : List UInt8) (start stop : Nat) : Option (List UInt8) :=
  if start ≤ stop ∧ stop ≤ bytes.length then some ((bytes.drop start).take (stop - start)) else none

/-- The rows from `address` on, one in each round. There is no answer if the rounds do not suffice, or
if a row would reach beyond the last byte. -/
def byAddress? (bytes : List UInt8) : (rounds address : Nat) → Option (List SweepRow)
  | 0, address => if address < bytes.length then none else some []
  | rounds + 1, address =>
    if address < bytes.length then
      (slice? bytes address bytes.length).bind fun ahead =>
        let instr := Instr.decode? ahead
        let next := address + stride instr
        (slice? bytes address next).bind fun row =>
          (byAddress? bytes rounds next).map (⟨address, row, instr⟩ :: ·)
    else some []

theorem slice?_append (front w rest : List UInt8) :
    slice? (front ++ (w ++ rest)) front.length (front.length + w.length) = some w := by
  have hle : front.length + w.length ≤ (front ++ (w ++ rest)).length := by
    simp only [List.length_append]
    omega
  rw [slice?, if_pos ⟨Nat.le_add_right _ _, hle⟩, List.drop_left, Nat.add_sub_cancel_left,
    List.take_left]

theorem slice?_length (front rest : List UInt8) :
    slice? (front ++ rest) front.length (front ++ rest).length = some rest := by
  have h := slice?_append front rest []
  rwa [List.append_nil, ← List.length_append] at h

theorem byAddress?_row {front w rest : List UInt8} {instr : Option Instr}
    (hdecode : Instr.decode? (w ++ rest) = instr) (hlength : w.length = stride instr)
    (hpos : 0 < w.length) (rounds : Nat) :
    byAddress? (front ++ (w ++ rest)) (rounds + 1) front.length =
      (byAddress? (front ++ (w ++ rest)) rounds (front.length + w.length)).map
        (⟨front.length, w, instr⟩ :: ·) := by
  have hlt : front.length < (front ++ (w ++ rest)).length := by
    simp only [List.length_append]
    omega
  rw [byAddress?, if_pos hlt, slice?_length]
  simp only [Option.bind_some, hdecode, ← hlength, slice?_append]

theorem Tiles.byAddress?_eq (front : List UInt8) {bytes : List UInt8} {rows : List SweepRow}
    (h : Tiles front.length bytes rows) {rounds : Nat} (hrounds : bytes.length ≤ rounds) :
    byAddress? (front ++ bytes) rounds front.length = some rows := by
  generalize haddress : front.length = address at h
  induction h generalizing front rounds with
  | nil => cases rounds <;> simp [byAddress?, ← haddress]
  | @row address w rest instr rows hdecode hlength hrest ih =>
    have hpos : 0 < w.length := by
      have hstride := stride_eq_one_or_two hdecode
      omega
    rw [List.length_append] at hrounds
    obtain ⟨rounds, rfl⟩ := Nat.exists_eq_add_one_of_ne_zero (show rounds ≠ 0 by omega)
    subst haddress
    have hnext := ih (front ++ w) (show rest.length ≤ rounds by omega) List.length_append
    rw [List.append_assoc] at hnext
    rw [byAddress?_row hdecode hlength hpos, hnext]
    rfl

end Sweep

theorem flatMap_sweepFrom (address : Nat) (bytes : List UInt8) :
    (sweepFrom address bytes).flatMap SweepRow.bytes = bytes :=
  (Sweep.tiles_sweepFrom address bytes).flatMap_bytes

/-- A sweep by addresses never reaches beyond the last byte, needs at most one round for each byte, and
makes the rows of the sweep. They cover the bytes without a gap, and a row has no instruction exactly
if none is decoded at its address. -/
theorem sweep_tiles (bytes : List UInt8) :
    Sweep.byAddress? bytes bytes.length 0 = some (sweep bytes) ∧
    (sweep bytes).flatMap SweepRow.bytes = bytes ∧
    ∀ front row back, sweep bytes = front ++ row :: back →
      row.address = (front.map fun r => r.bytes.length).sum ∧
      row.address + row.bytes.length ≤ bytes.length ∧
      (row.bytes.length = 1 ∨ row.bytes.length = 2) ∧
      (row.family = none → row.bytes.length = 1) ∧
      (row.family = none ↔ Instr.decode? (bytes.drop row.address) = none) := by
  have htiles : Sweep.Tiles 0 bytes (sweep bytes) := Sweep.tiles_sweepFrom 0 bytes
  refine ⟨htiles.byAddress?_eq [] (Nat.le_refl _), htiles.flatMap_bytes, ?_⟩
  intro front row back hrows
  obtain ⟨haddress, hlength, hinstr⟩ := htiles.of_append_cons hrows
  rw [Nat.zero_add] at haddress
  rw [← haddress] at hinstr
  refine ⟨haddress, ?_, hlength ▸ Sweep.stride_eq_one_or_two hinstr, fun hnone => ?_, ?_⟩
  · have hbytes := congrArg List.length htiles.flatMap_bytes
    rw [hrows, List.flatMap_append, List.flatMap_cons, List.length_append, List.length_append,
      List.length_flatMap, ← haddress] at hbytes
    omega
  · rw [hlength, Option.map_eq_none_iff.mp hnone]
    rfl
  · rw [SweepRow.family, Option.map_eq_none_iff, hinstr]

/-- A load, an addition, and a jump whose address is not there. -/
theorem sweep_tiles_truncated :
    let load : SweepRow :=
      ⟨0, [135, 42], some ⟨⟨.mov, some ⟨.a, false⟩, some ⟨.pc, true⟩⟩, 2, some 42⟩⟩
    let addition : SweepRow := ⟨2, [16], some ⟨⟨.add, none, some ⟨.a, false⟩⟩, 1, none⟩⟩
    let jump : SweepRow := ⟨3, [0xEE], none⟩
    sweep [135, 42, 16, 0xEE] = [load, addition] ++ jump :: [] ∧
      jump.address = ([load, addition].map fun r => r.bytes.length).sum ∧
      Instr.decode? ([135, 42, 16, 0xEE].drop jump.address) = none := by
  intro load addition jump
  have h := sweep_tiles [135, 42, 16, 0xEE]
  have hsweep : sweep [135, 42, 16, 0xEE] = [load, addition] ++ jump :: [] :=
    Option.some.inj (h.1.symm.trans (by rfl))
  obtain ⟨haddress, _, _, _, hnone⟩ := h.2.2 _ _ _ hsweep
  exact ⟨hsweep, haddress, hnone.mp rfl⟩

end Breadboard
