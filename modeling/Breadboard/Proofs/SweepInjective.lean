import Breadboard.Proofs.HexNumeral
import Breadboard.Proofs.SweepListing

/-! Listings of sweeps lose nothing. The text of a row is read as a statement that encodes to the bytes
of the row, or it shows the one byte that cannot be read, so the texts fix the bytes. They can be found
in a listing because the lines come apart and what stands in front of a text has a known end: the
address has no colon, and the column of the bytes is of one length for one byte and for two. -/

set_option autoImplicit false

namespace Breadboard

/-- Lists that agree under one function agree under every function that it fixes on their members. -/
theorem map_eq_of_map_eq {α β γ : Type} {f : α → β} {g : α → γ} {as bs : List α}
    (hfix : ∀ a ∈ as, ∀ b ∈ bs, f a = f b → g a = g b) (h : as.map f = bs.map f) :
    as.map g = bs.map g := by
  induction as generalizing bs with
  | nil =>
    obtain rfl : bs = [] := by simpa using h.symm
    rfl
  | cons a as ih =>
    cases bs with
    | nil => cases h
    | cons b bs =>
      obtain ⟨hhead, htail⟩ := List.cons.inj h
      rw [List.map_cons, List.map_cons, hfix a List.mem_cons_self b List.mem_cons_self hhead,
        ih (fun x hx y hy => hfix x (List.mem_cons_of_mem a hx) y (List.mem_cons_of_mem b hy)) htail]

theorem length_bytesColumn {bytes : List UInt8} (h : bytes.length ≤ 2) :
    (bytesColumn bytes).toList.length = 7 := by
  have hbyte (b : UInt8) : (Text.hex 2 b.toNat).toList.length = 2 := Text.length_hex_two b.toNat_lt
  unfold bytesColumn
  rcases bytes with _ | ⟨a, _ | ⟨b, _ | ⟨c, bytes⟩⟩⟩
  · decide
  · simp [List.rightpad, hbyte]
  · simp [List.rightpad, hbyte]
  · simp at h

namespace SweepRow.Proper

theorem length_bytes_le {row : SweepRow} (h : row.Proper) : row.bytes.length ≤ 2 := by
  cases h with
  | byte => exact Nat.le_succ 1
  | @instr address w rest i h hwidth =>
    have hone := Instr.width_eq_one_or_two h
    show w.length ≤ 2
    omega

/-- The text of a row is read as a statement with the bytes of the row, or not at all. -/
theorem bytes_eq_of_text_eq {row row' : SweepRow} (h : row.Proper) (h' : row'.Proper)
    (htext : row.text = row'.text) : row.bytes = row'.bytes := by
  have hparse := congrArg Statement.parse htext
  cases h with
  | byte address b =>
    rw [parse_byte] at hparse
    cases h' with
    | byte address' b' =>
      rw [parse_byte] at hparse
      injection hparse with hfault
      injection hfault with haddress
      rw [UInt8.toNat_inj.mp (Text.address_inj haddress)]
    | instr address' hdecode' hwidth' =>
      obtain ⟨m', hm'⟩ := exists_reads address' hdecode' hwidth'
      rw [hm'.parse_eq] at hparse
      cases hparse
  | instr address hdecode hwidth =>
    obtain ⟨m, hm⟩ := exists_reads address hdecode hwidth
    rw [hm.parse_eq] at hparse
    cases h' with
    | byte address' b' =>
      rw [parse_byte] at hparse
      cases hparse
    | instr address' hdecode' hwidth' =>
      obtain ⟨m', hm'⟩ := exists_reads address' hdecode' hwidth'
      rw [hm'.parse_eq] at hparse
      have hbytes := hm.encode_eq .zero
      rw [Except.ok.inj hparse, hm'.encode_eq] at hbytes
      exact (Except.ok.inj hbytes).symm

end SweepRow.Proper

namespace Sweep

def textOfLine (showBytes : Bool) (line : String) : String :=
  String.ofList ((Text.behindMark line.toList).drop (if showBytes then 7 else 0))

theorem textOfLine_lineWith {row : SweepRow} (h : row.Proper) (showBytes : Bool) :
    textOfLine showBytes (lineWith showBytes row) = row.text := by
  have hlength : (column showBytes row).toList.length = if showBytes then 7 else 0 := by
    cases showBytes with
    | false => rfl
    | true => exact length_bytesColumn h.length_bytes_le
  rw [textOfLine, toList_lineWith, Text.behindMark_append (Text.notMem_address rfl), ← hlength,
    List.drop_left, String.ofList_toList]

theorem map_text_of_text {rows : List SweepRow} (h : ∀ row ∈ rows, row.Proper) (showBytes : Bool) :
    (Text.lines (text rows showBytes)).map (textOfLine showBytes) = rows.map SweepRow.text := by
  rw [lines_text_eq_map h, List.map_map]
  apply List.map_congr_left
  intro row hrow
  exact textOfLine_lineWith (h row hrow) showBytes

theorem map_bytes_eq_of_map_text_eq {rows rows' : List SweepRow} (h : ∀ row ∈ rows, row.Proper)
    (h' : ∀ row ∈ rows', row.Proper) (htexts : rows.map SweepRow.text = rows'.map SweepRow.text) :
    rows.map SweepRow.bytes = rows'.map SweepRow.bytes :=
  map_eq_of_map_eq (fun row hrow row' hrow' => (h row hrow).bytes_eq_of_text_eq (h' row' hrow')) htexts

/-- The listing of a sweep fixes the bytes that it is of, with or without a column for them. -/
theorem text_sweep_inj (a b : List UInt8) (showBytes : Bool) :
    text (sweep a) showBytes = text (sweep b) showBytes ↔ a = b := by
  constructor
  · intro h
    have ha : ∀ row ∈ sweep a, row.Proper := proper_sweepFrom 0 a
    have hb : ∀ row ∈ sweep b, row.Proper := proper_sweepFrom 0 b
    have htexts : (sweep a).map SweepRow.text = (sweep b).map SweepRow.text := by
      rw [← map_text_of_text ha showBytes, h, map_text_of_text hb showBytes]
    have hbytes := congrArg List.flatten (map_bytes_eq_of_map_text_eq ha hb htexts)
    rwa [← List.flatMap_def, ← List.flatMap_def, sweep, sweep, flatMap_sweepFrom,
      flatMap_sweepFrom] at hbytes
  · rintro rfl
    rfl

end Sweep

end Breadboard
