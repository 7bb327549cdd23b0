import Breadboard.Proofs.Emission

/-! Listings and machine code. Both encode the lines of a program one after the other, so they fail at
the same line and for the same reason. Where they do not fail, the rows cut the machine code into the
places that the lines were given when they were taken. The labels that the bytes were made with are
those of the whole program, but the lengths and so the places do not depend on them. -/

set_option autoImplicit false

namespace Breadboard

open Measured

namespace ListingRow

structure Lists (p : Program) (l : Placed) (row : ListingRow) : Prop where
  encode_eq : p.encode l = .ok row.bytes
  address_eq : row.address = l.address
  source_eq : row.source = l.statement.line.render

/-- A row with the bytes that lie in machine code at the place of a line. -/
structure Covers (code : List UInt8) (l : Placed) (row : ListingRow) : Prop where
  address_eq : row.address = l.address
  address_le : row.address ≤ code.length
  length_eq : row.bytes.length = l.length
  bytes_eq : row.bytes = (code.drop l.address).take l.length

end ListingRow

open ListingRow

namespace Program
variable {p : Program} {rows : List ListingRow}

theorem listing_eq_ok_iff : p.listing = .ok rows ↔ p.lines.Forall₂ (Lists p) rows := by
  have hrow (l : Placed) (row : ListingRow) : ((p.encode l).map fun bytes =>
      (⟨l.address, bytes, l.statement.line.render⟩ : ListingRow)) = .ok row ↔ Lists p l row := by
    rw [Except.map_eq_ok_iff]
    constructor
    · rintro ⟨bytes, hbytes, rfl⟩
      exact ⟨hbytes, rfl, rfl⟩
    · intro h
      obtain ⟨address, bytes, source⟩ := row
      obtain ⟨hbytes, haddress, hsource⟩ := h
      exact ⟨bytes, hbytes, by rw [← haddress, ← hsource]⟩
  simp only [listing, Except.mapM_eq_ok_iff, hrow]

theorem listing_eq_error_iff {e : AssemblyError} :
    p.listing = .error e ↔ p.machineCode = .error e := by
  simp only [listing, machineCode, Except.map_eq_error_iff, Except.mapM_eq_error_iff,
    Except.exists_map_eq_ok_iff]

theorem machineCode_of_listing (h : p.listing = .ok rows) :
    p.machineCode = .ok (rows.map ListingRow.bytes).flatten := by
  apply machineCode_eq_ok_iff.mpr
  refine ⟨rows.map ListingRow.bytes, ?_, rfl⟩
  rw [List.forall₂_map_right_iff]
  exact (listing_eq_ok_iff.mp h).imp fun l row hrow => encode_eq_ok_iff.mp hrow.encode_eq

theorem map_source_of_listing (h : p.listing = .ok rows) :
    rows.map ListingRow.source = p.lines.map fun l => l.statement.line.render := by
  rw [← List.forall₂_eq_eq_eq, List.forall₂_map_left_iff, List.forall₂_map_right_iff]
  exact (listing_eq_ok_iff.mp h).flip.imp fun row l hrow => hrow.source_eq

/-- The rows of lines that lie one behind the other cover their bytes, behind any others. -/
theorem forall₂_covers (front : List UInt8) {ms : List Measured}
    (h : (placedFrom front.length ms).Forall₂ (Lists p) rows) :
    (placedFrom front.length ms).Forall₂
      (Covers (front ++ (rows.map ListingRow.bytes).flatten)) rows := by
  induction ms generalizing front rows with
  | nil =>
    cases h
    exact .nil
  | cons m ms ih =>
    cases h with
    | @cons _ row _ rows hrow hrows =>
      have hlength : row.bytes.length = m.length := length_of_encode m.length_eq hrow.encode_eq
      have hnext : (front ++ row.bytes).length = front.length + m.length := by
        rw [List.length_append, hlength]
      rw [← hnext] at hrows
      have hcovers := ih (front ++ row.bytes) hrows
      rw [hnext, List.append_assoc] at hcovers
      refine .cons ⟨hrow.address_eq, ?_, hlength, ?_⟩ hcovers
      · rw [hrow.address_eq, List.length_append]
        exact Nat.le_add_right _ _
      · rw [List.map_cons, List.flatten_cons, List.drop_left, ← hlength, List.take_left]

/-- A reachable program either has a listing and machine code, and then there is one row for each line
that was taken and the rows cover the machine code in order, or both fail with the same fault. -/
theorem listing_run (config : Config) (rs : List Request) :
    (∃ rows code, (run config rs).listing = .ok rows ∧ (run config rs).machineCode = .ok code ∧
      rows.map ListingRow.source = ((empty config).taken rs).map Line.render ∧
      (rows.map ListingRow.bytes).flatten = code ∧
      (run config rs).lines.Forall₂ (Covers code) rows) ∨
    ∃ e, (run config rs).listing = .error e ∧ (run config rs).machineCode = .error e := by
  cases hlisting : (run config rs).listing with
  | error e => exact .inr ⟨e, rfl, listing_eq_error_iff.mp hlisting⟩
  | ok rows =>
    left
    refine ⟨rows, _, rfl, machineCode_of_listing hlisting, ?_, rfl, ?_⟩
    · rw [map_source_of_listing hlisting, ← (invariant_run config rs).lines_eq, List.map_map]
      rfl
    · obtain ⟨ms, _, hrun, _⟩ := exists_run_eq_ofMeasured config rs
      have hlines : (run config rs).lines = placedFrom 0 ms := by
        rw [hrun, lines_ofMeasured, placed_eq_placedFrom]
      have hrows := listing_eq_ok_iff.mp hlisting
      rw [hlines] at hrows ⊢
      exact forall₂_covers [] hrows

end Program

end Breadboard
