import Breadboard.Listing
import Breadboard.Proofs.Reassembly

/-! The text of a sweep as a listing. Each line has an address, the bytes of a row unless they are left
out, and the text of the row, and the first colon with a blank behind it is the one behind the address,
which has no colon. So the texts of the rows can be taken out of a listing again. If the sweep is of the
machine code of some program, they assemble to the same machine code, whatever the configuration: every
row has an instruction, and the texts have no labels. -/

set_option autoImplicit false

namespace Breadboard

open Measured

namespace Text

/-- What stands behind the first colon that has a blank behind it. -/
def behindMark : List Char → List Char
  | ':' :: ' ' :: cs => cs
  | _ :: cs => behindMark cs
  | [] => []

theorem behindMark_append {front : List Char} (h : ':' ∉ front) (rest : List Char) :
    behindMark (front ++ ':' :: ' ' :: rest) = rest := by
  induction front with
  | nil => rfl
  | cons c front ih =>
    rw [List.mem_cons, not_or] at h
    rw [List.cons_append, behindMark, ih h.2]
    rintro cs rfl
    exact absurd rfl h.1

end Text

theorem feed_notMem_bytesColumn (bytes : List UInt8) : '\n' ∉ (bytesColumn bytes).toList := by
  intro h
  rw [bytesColumn, String.toList_ofList, List.rightpad, List.mem_append] at h
  rcases h with h | h
  · rw [String.toList_join, List.mem_flatMap] at h
    obtain ⟨text, htext, hmem⟩ := h
    obtain ⟨b, _, rfl⟩ := List.mem_map.mp htext
    rw [String.toList_append, List.mem_append] at hmem
    rcases hmem with hmem | hmem
    · exact Text.notMem_hex rfl hmem
    · simp at hmem
  · cases List.eq_of_mem_replicate h

namespace Sweep

/-- A listing without its addresses: the rest of each line, with a line feed behind it. -/
def withoutAddresses (listing : String) : String :=
  String.join (((Text.lines listing).map fun line =>
    String.ofList (Text.behindMark line.toList)).map (· ++ "\n"))

def column (showBytes : Bool) (row : SweepRow) : String :=
  if showBytes then bytesColumn row.bytes else ""

def lineWith (showBytes : Bool) (row : SweepRow) : String :=
  Text.address row.address ++ ": " ++ column showBytes row ++ row.text

theorem toList_lineWith (showBytes : Bool) (row : SweepRow) :
    (lineWith showBytes row).toList = (Text.address row.address).toList ++
      ':' :: ' ' :: ((column showBytes row).toList ++ row.text.toList) := by
  simp [lineWith]

theorem text_eq_join_lineWith (rows : List SweepRow) (showBytes : Bool) :
    text rows showBytes = String.join ((rows.map (lineWith showBytes)).map (· ++ "\n")) := by
  rw [text, List.map_map]
  apply congrArg String.join
  apply List.map_congr_left
  intro row _
  cases showBytes <;> simp [rowText, lineWith, column]

theorem feed_notMem_column (showBytes : Bool) (row : SweepRow) :
    '\n' ∉ (column showBytes row).toList := by
  unfold column
  split
  · exact feed_notMem_bytesColumn row.bytes
  · simp

theorem unbroken_lineWith {row : SweepRow} (h : row.Proper) (showBytes : Bool) :
    Text.Unbroken (lineWith showBytes row).toList := by
  obtain ⟨hne, htext⟩ := h.text_line
  have haddress : '\n' ∉ (Text.address row.address).toList := Text.notMem_address rfl
  have hcolumn := feed_notMem_column showBytes row
  have hne : row.text.toList ≠ [] := mt String.toList_eq_nil_iff.mp hne
  rw [toList_lineWith]
  refine ⟨by simp [haddress, hcolumn, htext.feed], ?_⟩
  rw [← List.cons_append, ← List.cons_append, ← List.append_assoc,
    List.getLast?_append_of_ne_nil _ hne]
  exact htext.last

theorem lines_text_eq_map {rows : List SweepRow} (h : ∀ row ∈ rows, row.Proper) (showBytes : Bool) :
    Text.lines (text rows showBytes) = rows.map (lineWith showBytes) := by
  rw [text_eq_join_lineWith, Text.lines_join]
  · rw [List.map_map]
    apply List.map_congr_left
    intro row hrow
    simp [Text.dropReturn_of_last (unbroken_lineWith (h row hrow) showBytes).last]
  · rw [List.forall_mem_map]
    exact fun row hrow => (unbroken_lineWith (h row hrow) showBytes).feed

def line (row : SweepRow) : String := Text.address row.address ++ ": " ++ row.text

theorem line_eq (row : SweepRow) : line row = lineWith false row := by simp [line, lineWith, column]

theorem toList_line (row : SweepRow) :
    (line row).toList = (Text.address row.address).toList ++ ':' :: ' ' :: row.text.toList := by
  simp [line]

section Proper
variable {rows : List SweepRow} (h : ∀ row ∈ rows, row.Proper)
include h

theorem lines_text : Text.lines (text rows false) = rows.map line := by
  rw [lines_text_eq_map h, funext line_eq]

theorem lines_withoutAddresses :
    Text.lines (withoutAddresses (text rows false)) = rows.map SweepRow.text := by
  have hbehind (row : SweepRow) : Text.behindMark (line row).toList = row.text.toList := by
    rw [toList_line]
    exact Text.behindMark_append (Text.notMem_address rfl) _
  unfold withoutAddresses
  rw [lines_text h, Text.lines_join]
  · simp only [List.map_map]
    apply List.map_congr_left
    intro row hrow
    simp [hbehind, Text.dropReturn_of_last (h row hrow).text_line.2.last]
  · rw [List.map_map, List.forall_mem_map]
    intro row hrow
    simp [hbehind, (h row hrow).text_line.2.feed]

end Proper

end Sweep

section Program
variable {texts : List String} {config : Config} {p : Program} {code : List UInt8}
  (h : assembleLines texts config = .ok p) (hcode : p.machineCode = .ok code)
include h hcode

theorem length_le_of_machineCode : code.length ≤ addressSpace := by
  obtain ⟨ms, _, hfit, _, rfl⟩ := assembleLines_eq_ok_iff.mp h
  have hlengths : ∀ l ∈ (Program.ofMeasured config ms).lines, l.statement.length = .ok l.length := by
    rw [Program.lines_ofMeasured]
    exact fun l => length_eq_of_mem_placed
  have hinvariant := Program.invariant_ofMeasured hfit
  rw [Program.length_of_machineCode hlengths hcode, ← hinvariant.size_eq]
  exact hinvariant.size_le

theorem isSome_sweep_machineCode : ∀ row ∈ sweep code, row.family.isSome := by
  obtain ⟨ms, _, _, _, rfl⟩ := assembleLines_eq_ok_iff.mp h
  obtain ⟨codes, hcodes, rfl⟩ := (Program.machineCode_ofMeasured_eq_ok_iff config ms code).mp hcode
  intro row hrow
  obtain ⟨l, _, hshows⟩ := Except.exists_of_forall₂ (forall₂_shows hcodes 0).flip row hrow
  rw [SweepRow.family, Option.isSome_map]
  exact hshows.decoded

/-- The listing of machine code, without its addresses, assembles to this machine code. -/
theorem assemble_withoutAddresses (config' : Config) :
    ∃ q, assemble (Sweep.withoutAddresses (Sweep.text (sweep code) false)) config' = .ok q ∧
      q.machineCode = .ok code := by
  have hproper : ∀ row ∈ sweep code, row.Proper := proper_sweepFrom 0 code
  obtain ⟨ns, hns⟩ := exists_reads_of_isSome hproper (isSome_sweep_machineCode h hcode)
  have hsame : assemble (Sweep.withoutAddresses (Sweep.text (sweep code) false)) config' =
      assemble (sweepSource (sweep code)) config' := by
    unfold assemble
    rw [Sweep.lines_withoutAddresses hproper, lines_sweepSource]
  have hassemble : assemble (sweepSource (sweep code)) config' = .ok (.ofMeasured config' ns) :=
    assemble_sweepSource_eq_ok_iff.mpr ⟨ns, hns, length_le_of_machineCode h hcode, rfl⟩
  have hbytes : ((sweep code).map SweepRow.bytes).flatten = code := by
    rw [← List.flatMap_def, sweep, flatMap_sweepFrom]
  refine ⟨.ofMeasured config' ns, hsame.trans hassemble, ?_⟩
  exact (Program.machineCode_ofMeasured_eq_ok_iff config' ns code).mpr
    ⟨_, encode_of_reads hns _, hbytes⟩

end Program

end Breadboard
