import Breadboard.Proofs.Agreement
import Breadboard.Proofs.DumpReading
import Breadboard.Proofs.ListingSource
import Breadboard.Proofs.SweepInjective
import Breadboard.Tool.Assembler

/-! Printed programs lose nothing. A dump has a numeral on each line, and no two bytes have the same one.
A line of a listing has an address, which ends at the first colon, the bytes as words in a column of one
width, and the text of a line to its end. So the lines fix the rows, and a text fixes its lines because
none of them holds a line feed. A text may end in a carriage return, which is why lines are told apart
by the line feeds alone here. -/

set_option autoImplicit false

namespace Breadboard

open Measured

namespace Utf8

theorem encode_inj {s t : String} : encode s = encode t ↔ s = t := by
  constructor
  · intro h
    have hdecode := congrArg decode? h
    rw [decode?_encode, decode?_encode] at hdecode
    exact Option.some.inj hdecode
  · rintro rfl
    rfl

end Utf8

namespace Dump

theorem decimal_inj {a b : List UInt8} : decimal a = decimal b ↔ a = b := by
  constructor
  · intro h
    have hread := congrArg read h
    rw [read_decimal, read_decimal] at hread
    exact Except.ok.inj hread
  · rintro rfl
    rfl

theorem hex_inj {a b : List UInt8} : hex a = hex b ↔ a = b := by
  have hjoin (bytes : List UInt8) : hex bytes =
      String.join ((bytes.map fun b => Text.hex 2 b.toNat).map (· ++ "\n")) := by
    rw [hex, List.map_map]
    rfl
  have hfeed (bytes : List UInt8) :
      ∀ t ∈ bytes.map fun b => Text.hex 2 b.toNat, '\n' ∉ t.toList := by
    rw [List.forall_mem_map]
    exact fun _ _ => Text.notMem_hex rfl
  constructor
  · intro h
    rw [hjoin, hjoin] at h
    have hnumerals := Text.join_feeds_inj (hfeed a) (hfeed b) h
    apply List.map_injective_iff.mpr _ hnumerals
    intro x y hxy
    exact UInt8.toNat_inj.mp (Text.hex_two_inj hxy)
  · rintro rfl
    rfl

end Dump

theorem Text.words_replicate_blank (n : Nat) : Text.words (List.replicate n ' ') = [] := by
  induction n with
  | zero => rfl
  | succ n ih =>
    rw [List.replicate_succ, Text.words, if_pos (by decide), ih]

theorem words_bytesColumn (bytes : List UInt8) : Text.words (bytesColumn bytes).toList =
    bytes.map fun b => (Text.hex 2 b.toNat).toList := by
  rw [bytesColumn, String.toList_ofList, List.rightpad]
  generalize 7 - _ = n
  induction bytes with
  | nil => exact Text.words_replicate_blank n
  | cons b bytes ih =>
    have hne : (Text.hex 2 b.toNat).toList ≠ [] := by
      rw [Text.toList_hex_two]
      exact List.append_ne_nil_of_right_ne_nil _ (List.cons_ne_nil _ _)
    have hblank : ∀ c ∈ (Text.hex 2 b.toNat).toList, Text.isBlank c = false := by
      intro c hc
      exact Text.isBlank_of_isAlphanum (Text.isAlphanum_of_mem_hex hc)
    rw [List.map_cons, String.join_cons, String.toList_append, String.toList_append,
      List.append_assoc, List.append_assoc]
    simp only [String.reduceToList, List.cons_append, List.nil_append]
    rw [Text.words_append hne hblank (by decide), ih, List.map_cons]

theorem bytesColumn_inj {a b : List UInt8} (h : bytesColumn a = bytesColumn b) : a = b := by
  have hwords := congrArg (fun s => Text.words s.toList) h
  simp only [words_bytesColumn] at hwords
  apply List.map_injective_iff.mpr _ hwords
  intro x y hxy
  exact UInt8.toNat_inj.mp (Text.hex_two_inj (String.toList_inj.mp hxy))

/-- A row whose bytes fit into their column and whose text stays on one line. -/
structure ListingRow.Printable (row : ListingRow) : Prop where
  length_le : row.bytes.length ≤ 2
  feed : '\n' ∉ row.source.toList

namespace Listing

def line (row : ListingRow) : String :=
  Text.address row.address ++ ": " ++ bytesColumn row.bytes ++ row.source

theorem toList_line (row : ListingRow) : (line row).toList = (Text.address row.address).toList ++
    ':' :: ' ' :: ((bytesColumn row.bytes).toList ++ row.source.toList) := by
  simp [line]

theorem text_eq_join_line (rows : List ListingRow) :
    text rows = String.join ((rows.map line).map (· ++ "\n")) := by
  rw [text, List.map_map]
  rfl

theorem feed_notMem_line {row : ListingRow} (h : row.Printable) : '\n' ∉ (line row).toList := by
  have haddress : '\n' ∉ (Text.address row.address).toList := Text.notMem_address rfl
  have hcolumn := feed_notMem_bytesColumn row.bytes
  rw [toList_line]
  simp [haddress, hcolumn, h.feed]

theorem line_inj {row row' : ListingRow} (h : row.Printable) (h' : row'.Printable)
    (heq : line row = line row') : row = row' := by
  have hlist := congrArg String.toList heq
  rw [toList_line, toList_line] at hlist
  obtain ⟨haddress, hrest⟩ :=
    Text.append_cons_inj (Text.notMem_address rfl) (Text.notMem_address rfl) hlist
  have hlength : (bytesColumn row.bytes).toList.length = (bytesColumn row'.bytes).toList.length := by
    rw [length_bytesColumn h.length_le, length_bytesColumn h'.length_le]
  obtain ⟨hcolumn, hsource⟩ := List.append_inj (List.cons.inj hrest).2 hlength
  obtain ⟨address, bytes, source⟩ := row
  obtain ⟨address', bytes', source'⟩ := row'
  rw [ListingRow.mk.injEq]
  exact ⟨Text.address_inj (String.toList_inj.mp haddress),
    bytesColumn_inj (String.toList_inj.mp hcolumn), String.toList_inj.mp hsource⟩

theorem text_inj {rows rows' : List ListingRow} (h : ∀ row ∈ rows, row.Printable)
    (h' : ∀ row ∈ rows', row.Printable) : text rows = text rows' ↔ rows = rows' := by
  constructor
  · intro heq
    rw [text_eq_join_line, text_eq_join_line] at heq
    have hlines : rows.map line = rows'.map line := by
      apply Text.join_feeds_inj _ _ heq
      · rw [List.forall_mem_map]
        exact fun row hrow => feed_notMem_line (h row hrow)
      · rw [List.forall_mem_map]
        exact fun row hrow => feed_notMem_line (h' row hrow)
    have hrows : rows.map id = rows'.map id := by
      apply map_eq_of_map_eq _ hlines
      exact fun row hrow row' hrow' => line_inj (h row hrow) (h' row' hrow')
    rwa [List.map_id, List.map_id] at hrows
  · rintro rfl
    rfl

end Listing

section Assembled
variable {texts : List String} {config : Config} {p : Program}
  (h : assembleLines texts config = .ok p)
include h

theorem exists_listing_of_assembleLines : ∃ rows, p.listing = .ok rows := by
  obtain ⟨code, hcode⟩ := exists_machineCode_of_assembleLines h
  cases hlisting : p.listing with
  | ok rows => exact ⟨rows, rfl⟩
  | error e =>
    rw [Program.listing_eq_error_iff.mp hlisting] at hcode
    cases hcode

theorem printable_of_assembleLines (hfeed : ∀ text ∈ texts, '\n' ∉ text.toList)
    {rows : List ListingRow} (hrows : p.listing = .ok rows) : ∀ row ∈ rows, row.Printable := by
  obtain ⟨ms, hread, _, hclosed, rfl⟩ := assembleLines_eq_ok_iff.mp h
  intro row hrow
  have hlists := Program.listing_eq_ok_iff.mp hrows
  rw [Program.lines_ofMeasured] at hlists
  obtain ⟨l, hl, hlist⟩ := Except.exists_of_forall₂ hlists.flip row hrow
  obtain ⟨i, m, hm, rfl⟩ := mem_placed_iff.mp hl
  have hlength := Program.length_of_encode m.length_eq hlist.encode_eq
  constructor
  · rw [hlength]
    exact m.length_le_two
  · rw [hlist.source_eq]
    exact feed_notMem_render_of_read hread hclosed hfeed (List.mem_of_getElem? hm)

end Assembled

/-- Two programs that were assembled print the same listing exactly if their rows are the same, and the
same dump, decimal or hexadecimal, exactly if their bytes are. -/
theorem print_inj {source source' : String} {config config' : Config} {p q : Program}
    (hp : assemble source config = .ok p) (hq : assemble source' config' = .ok q) :
    (∃ rows rows', p.listing = .ok rows ∧ q.listing = .ok rows' ∧
      (p.print .listing = q.print .listing ↔ rows = rows')) ∧
    ∃ code code', p.machineCode = .ok code ∧ q.machineCode = .ok code' ∧
      (p.print .dec = q.print .dec ↔ code = code') ∧
      (p.print .hex = q.print .hex ↔ code = code') := by
  obtain ⟨rows, hrows⟩ := exists_listing_of_assembleLines hp
  obtain ⟨rows', hrows'⟩ := exists_listing_of_assembleLines hq
  obtain ⟨code, hcode⟩ := exists_machineCode_of_assembleLines hp
  obtain ⟨code', hcode'⟩ := exists_machineCode_of_assembleLines hq
  have hprintable : ∀ row ∈ rows, row.Printable :=
    printable_of_assembleLines hp (fun _ => Text.feed_notMem_of_mem_lines) hrows
  have hprintable' : ∀ row ∈ rows', row.Printable :=
    printable_of_assembleLines hq (fun _ => Text.feed_notMem_of_mem_lines) hrows'
  refine ⟨⟨rows, rows', hrows, hrows', ?_⟩, code, code', hcode, hcode', ?_, ?_⟩
  · simp only [Program.print, hrows, hrows', Except.map, Except.ok.injEq]
    rw [Utf8.encode_inj, Listing.text_inj hprintable hprintable']
  · simp only [Program.print, hcode, hcode', Except.map, Except.ok.injEq]
    rw [Utf8.encode_inj, Dump.decimal_inj]
  · simp only [Program.print, hcode, hcode', Except.map, Except.ok.injEq]
    rw [Utf8.encode_inj, Dump.hex_inj]

/-- A carriage return at the end of a comment shows in the listing and in no dump. -/
theorem print_inj_return : ∃ p q,
    assemble "HLT ;x\r" {} = .ok p ∧ assemble "HLT ;x" {} = .ok q ∧
      p.print .listing ≠ q.print .listing ∧ p.print .dec = q.print .dec ∧
      p.print .hex = q.print .hex := by
  obtain ⟨p, hp, hrows, hcode⟩ : ∃ p, assemble "HLT ;x\r" {} = .ok p ∧
      p.listing = .ok [⟨0, [0xF9], "HLT ;x\r"⟩] ∧ p.machineCode = .ok [0xF9] := ⟨_, rfl, rfl, rfl⟩
  obtain ⟨q, hq, hrows', hcode'⟩ : ∃ q, assemble "HLT ;x" {} = .ok q ∧
      q.listing = .ok [⟨0, [0xF9], "HLT ;x"⟩] ∧ q.machineCode = .ok [0xF9] := ⟨_, rfl, rfl, rfl⟩
  obtain ⟨⟨rows, rows', hr, hr', hlisting⟩, code, code', hc, hc', hdec, hhex⟩ := print_inj hp hq
  obtain rfl : _ = rows := by simpa [hrows] using hr
  obtain rfl : _ = rows' := by simpa [hrows'] using hr'
  obtain rfl : _ = code := by simpa [hcode] using hc
  obtain rfl : _ = code' := by simpa [hcode'] using hc'
  exact ⟨p, q, hp, hq, mt hlisting.mp (by decide), hdec.mpr rfl, hhex.mpr rfl⟩

end Breadboard
