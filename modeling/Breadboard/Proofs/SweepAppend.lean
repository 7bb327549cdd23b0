import Breadboard.Proofs.SweepCode

/-! Sweeps of bytes that are put together. What a byte decodes to depends on at most one byte behind
it, so a row can change only if more bytes come where its own byte calls for an immediate and is the
last one. Any other list is settled: a sweep goes through it in the same rows whatever comes behind it,
and then goes on as if it began there. -/

set_option autoImplicit false

namespace Breadboard

namespace SweepRow

def shift (n : Nat) (row : SweepRow) : SweepRow := { row with address := row.address + n }

end SweepRow

theorem sweepFrom_add (address n : Nat) (bytes : List UInt8) :
    sweepFrom (address + n) bytes = (sweepFrom address bytes).map (SweepRow.shift n) := by
  fun_induction sweepFrom address bytes with
  | case1 => rw [sweepFrom]; rfl
  | case2 address byte rest h ih =>
    rw [sweepFrom_of_decode?_eq_none h, List.map_cons, ← ih, Nat.add_right_comm]
    rfl
  | case3 address byte rest i h ih =>
    rw [sweepFrom_of_decode?_eq_some h, List.map_cons, ← ih, Nat.add_right_comm]
    rfl

theorem sweepFrom_eq_map_sweep (n : Nat) (bytes : List UInt8) :
    sweepFrom n bytes = (sweep bytes).map (SweepRow.shift n) := by
  have h := sweepFrom_add 0 n bytes
  rwa [Nat.zero_add] at h

namespace Instr

theorem decode?_of_ofByte?_eq_none {byte : UInt8} (h : Head.ofByte? byte = none)
    (rest : List UInt8) : decode? (byte :: rest) = none := by
  simp only [decode?, h]

theorem decode?_of_fetches {byte : UInt8} {head : Head} (h : Head.ofByte? byte = some head)
    (hfetches : head.fetches = true) (rest : List UInt8) :
    decode? (byte :: rest) = rest.head?.map fun imm => ⟨head, 2, some imm⟩ := by
  simp only [decode?, h, hfetches, if_true]

/-- A byte that begins a head decodes, unless it calls for an immediate and is the last one. -/
theorem eq_nil_of_decode?_eq_none {byte : UInt8} {rest : List UInt8} {head : Head}
    (h : decode? (byte :: rest) = none) (hhead : Head.ofByte? byte = some head) :
    head.fetches = true ∧ rest = [] := by
  cases hfetches : head.fetches with
  | false => simp [decode?, hhead, hfetches] at h
  | true =>
    rw [decode?_of_fetches hhead hfetches] at h
    exact ⟨rfl, by simpa using h⟩

theorem decode?_take_append {bytes : List UInt8} {i : Instr} (h : decode? bytes = some i)
    (more : List UInt8) : decode? (bytes.take i.width ++ more) = some i := by
  cases bytes with
  | nil => cases h
  | cons byte rest =>
    obtain ⟨head, hhead, ⟨hf, rfl⟩ | ⟨hf, v, hv, rfl⟩⟩ := decode?_cons_eq_some_iff.mp h
    · exact decode?_cons_eq_some_iff.mpr ⟨head, hhead, .inl ⟨hf, rfl⟩⟩
    · obtain ⟨rest, rfl⟩ := List.head?_eq_some_iff.mp hv
      exact decode?_cons_eq_some_iff.mpr ⟨head, hhead, .inr ⟨hf, v, rfl, rfl⟩⟩

end Instr

namespace Sweep

/-- A sweep that comes to `w` gives it a row of its own, whatever comes behind it. -/
def MakesRow (w : List UInt8) (instr : Option Instr) : Prop :=
  ∀ address rest, sweepFrom address (w ++ rest) =
    ⟨address, w, instr⟩ :: sweepFrom (address + w.length) rest

theorem makesRow_byte {b : UInt8} (h : Head.ofByte? b = none) : MakesRow [b] none := by
  intro address rest
  exact sweepFrom_of_decode?_eq_none (Instr.decode?_of_ofByte?_eq_none h rest) address

theorem makesRow_instr {w : List UInt8} {i : Instr} (h : Instr.decode? w = some i)
    (hwidth : i.width = w.length) : MakesRow w (some i) := by
  intro address rest
  have hdecode := Instr.decode?_take_append h rest
  rw [hwidth, List.take_length] at hdecode
  exact sweepFrom_append hdecode hwidth address

section MakesRow
variable {w : List UInt8} {instr : Option Instr} (h : MakesRow w instr) (address : Nat)
include h

theorem MakesRow.sweepFrom_eq : sweepFrom address w = [⟨address, w, instr⟩] := by
  have hrow := h address []
  rwa [List.append_nil, sweepFrom] at hrow

theorem MakesRow.sweepFrom_concat {front : List UInt8}
    (hfront : ∀ rest, sweepFrom address (front ++ rest) =
      sweepFrom address front ++ sweepFrom (address + front.length) rest) (rest : List UInt8) :
    sweepFrom address (front ++ w ++ rest) =
      sweepFrom address (front ++ w) ++ sweepFrom (address + (front ++ w).length) rest := by
  rw [List.append_assoc, hfront, hfront w, h.sweepFrom_eq, h, List.length_append,
    List.append_assoc, ← Nat.add_assoc, List.singleton_append]

end MakesRow

/-- Bytes that a sweep goes through in rows that stay as they are, whatever comes behind them. -/
inductive Settled : List UInt8 → Prop
  | nil : Settled []
  | byte {front : List UInt8} {b : UInt8} (hfront : Settled front) (h : Head.ofByte? b = none) :
      Settled (front ++ [b])
  | instr {front w : List UInt8} {i : Instr} (hfront : Settled front)
      (h : Instr.decode? w = some i) (hwidth : i.width = w.length) : Settled (front ++ w)

theorem Settled.sweepFrom_append {front : List UInt8} (h : Settled front) (address : Nat)
    (rest : List UInt8) : sweepFrom address (front ++ rest) =
      sweepFrom address front ++ sweepFrom (address + front.length) rest := by
  induction h generalizing rest with
  | nil => rw [sweepFrom]; rfl
  | byte _ h ih => exact (makesRow_byte h).sweepFrom_concat address ih rest
  | instr _ h hwidth ih => exact (makesRow_instr h hwidth).sweepFrom_concat address ih rest

/-- The last byte calls for an immediate that is not there, and the bytes in front are settled. -/
structure Truncated (front : List UInt8) (last : UInt8) (head : Head) : Prop where
  settled : Settled front
  head_eq : Head.ofByte? last = some head
  fetches : head.fetches = true

/-- Behind settled bytes, each row leaves settled bytes, unless it is the last row and its byte calls for
an immediate. -/
theorem settled_or_truncated {address : Nat} {rest : List UInt8} {rows : List SweepRow}
    (h : Tiles address rest rows) {front : List UInt8} (hfront : Settled front) :
    Settled (front ++ rest) ∨
      ∃ whole last head, front ++ rest = whole ++ [last] ∧ Truncated whole last head := by
  induction h generalizing front with
  | nil => exact .inl (by rwa [List.append_nil])
  | @row address w rest instr rows hdecode hlength hrest ih =>
    rw [← List.append_assoc]
    cases instr with
    | some i =>
      refine ih (hfront.instr ?_ hlength.symm)
      have htake := Instr.decode?_take_append hdecode []
      rwa [List.append_nil, show i.width = w.length from hlength.symm, List.take_left] at htake
    | none =>
      obtain ⟨b, rfl⟩ := List.length_eq_one_iff.mp hlength
      cases hhead : Head.ofByte? b with
      | none => exact ih (hfront.byte hhead)
      | some head =>
        obtain ⟨hfetches, rfl⟩ := Instr.eq_nil_of_decode?_eq_none hdecode hhead
        exact .inr ⟨front, b, head, List.append_nil _, ⟨hfront, hhead, hfetches⟩⟩

/-- Bytes that are read in the same rows when more come: no bytes at all, or the last row has an
instruction, or the last byte starts none whatever comes behind it. -/
def Complete (bytes : List UInt8) : Prop :=
  bytes = [] ∨ (∃ row, (sweep bytes).getLast? = some row ∧ row.family.isSome) ∨
    ∃ last, bytes.getLast? = some last ∧ ∀ next, Instr.decode? [last, next] = none

theorem Settled.complete {bytes : List UInt8} (h : Settled bytes) : Complete bytes := by
  cases h with
  | nil => exact .inl rfl
  | @byte front b hfront h =>
    refine .inr (.inr ⟨b, List.getLast?_concat, fun next => ?_⟩)
    exact Instr.decode?_of_ofByte?_eq_none h [next]
  | @instr front w i hfront h hwidth =>
    refine .inr (.inl ⟨⟨0 + front.length, w, some i⟩, ?_, rfl⟩)
    rw [sweep, hfront.sweepFrom_append, (makesRow_instr h hwidth).sweepFrom_eq]
    exact List.getLast?_concat

namespace Truncated
variable {front : List UInt8} {last : UInt8} {head : Head} (h : Truncated front last head)
include h

theorem sweep_eq : sweep (front ++ [last]) = sweep front ++ [⟨front.length, [last], none⟩] := by
  have hlast : Instr.decode? [last] = none := Instr.decode?_of_fetches h.head_eq h.fetches []
  rw [sweep, h.settled.sweepFrom_append, sweepFrom_of_decode?_eq_none hlast, sweepFrom, Nat.zero_add]
  rfl

theorem decode?_pair (next : UInt8) (rest : List UInt8) :
    Instr.decode? (last :: next :: rest) = some ⟨head, 2, some next⟩ :=
  Instr.decode?_of_fetches h.head_eq h.fetches (next :: rest)

theorem not_complete : ¬ Complete (front ++ [last]) := by
  rintro (hnil | ⟨row, hrow, hsome⟩ | ⟨b, hb, hnone⟩)
  · simp at hnil
  · rw [h.sweep_eq, List.getLast?_concat] at hrow
    cases hrow
    cases hsome
  · obtain rfl : last = b := by simpa using hb
    have hpair := hnone 0
    rw [h.decode?_pair] at hpair
    cases hpair

theorem sweep_append_cons (next : UInt8) (rest : List UInt8) :
    sweep (front ++ [last] ++ next :: rest) =
      sweep front ++ ⟨front.length, [last, next], some ⟨head, 2, some next⟩⟩ ::
        sweepFrom (front.length + 2) rest := by
  rw [sweep, List.append_assoc, h.settled.sweepFrom_append, List.singleton_append,
    sweepFrom_of_decode?_eq_some (h.decode?_pair next rest), Nat.zero_add]
  rfl

end Truncated

end Sweep

open Sweep

/-- A sweep of complete bytes goes on behind them as if it began there. If the bytes are not complete,
their last row takes the next byte in and becomes an instruction of two bytes. -/
theorem sweep_append (a b : List UInt8) :
    (Complete a → sweep (a ++ b) = sweep a ++ (sweep b).map (SweepRow.shift a.length)) ∧
    (¬ Complete a → ∀ next rest, b = next :: rest →
      ∃ last i, a.getLast? = some last ∧ Instr.decode? [last, next] = some i ∧ i.width = 2 ∧
        sweep (a ++ b) = (sweep a).dropLast ++ ⟨a.length - 1, [last, next], some i⟩ ::
          (sweep rest).map (SweepRow.shift (a.length + 1))) := by
  have hsplit : Settled a ∨ ∃ front last head, a = front ++ [last] ∧ Truncated front last head :=
    settled_or_truncated (tiles_sweepFrom 0 a) .nil
  rcases hsplit with h | ⟨front, last, head, rfl, h⟩
  · refine ⟨fun _ => ?_, fun hnot => absurd h.complete hnot⟩
    rw [sweep, h.sweepFrom_append, Nat.zero_add, sweepFrom_eq_map_sweep a.length]
    rfl
  · refine ⟨fun hcomplete => absurd hcomplete h.not_complete, ?_⟩
    rintro _ next rest rfl
    refine ⟨last, ⟨head, 2, some next⟩, List.getLast?_concat, h.decode?_pair next [], rfl, ?_⟩
    rw [h.sweep_append_cons, h.sweep_eq, List.dropLast_concat, sweepFrom_eq_map_sweep,
      List.length_append]
    rfl

/-- A jump whose address is in the next part, and a halt in front of such a jump. -/
theorem sweep_append_jump :
    (¬ Complete [0xEE] ∧ ∃ i, sweep ([0xEE] ++ [12, 0xF9]) =
      (sweep [0xEE]).dropLast ++ ⟨0, [0xEE, 12], some i⟩ ::
        (sweep [0xF9]).map (SweepRow.shift 2)) ∧
      Complete [0xF9] ∧ sweep ([0xF9] ++ [0xEE]) =
        sweep [0xF9] ++ (sweep [0xEE]).map (SweepRow.shift 1) := by
  have hjump : Truncated [] 0xEE ⟨.jmp, none, some ⟨.pc, false⟩⟩ := ⟨.nil, by rfl, by rfl⟩
  have hhalt : Settled [0xF9] :=
    .instr (w := [0xF9]) (i := ⟨⟨.hlt, none, none⟩, 1, none⟩) .nil (by rfl) (by rfl)
  refine ⟨⟨hjump.not_complete, ?_⟩, hhalt.complete,
    (sweep_append [0xF9] [0xEE]).1 hhalt.complete⟩
  obtain ⟨last, i, hlast, _, _, hsweep⟩ :=
    (sweep_append [0xEE] [12, 0xF9]).2 hjump.not_complete 12 [0xF9] rfl
  obtain rfl : 0xEE = last := by simpa using hlast
  exact ⟨i, hsweep⟩

end Breadboard
