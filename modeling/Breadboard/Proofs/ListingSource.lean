import Breadboard.Proofs.Comments
import Breadboard.Proofs.LineRoundTrip
import Breadboard.Proofs.ListingRows
import Breadboard.Proofs.SweepText

/-! Listings as sources. Not every line is read back from its canonical text, but the lines of an
assembled program are: a colon in a field would be part of an operation, a number, a register or the
name of a declared label, and none of them has one. So the texts of a listing make a source again. In
front of a line feed a comment loses a carriage return at its end, but comments do not count. -/

set_option autoImplicit false

namespace Breadboard

namespace Line

/-- A comment as it is read in front of a line feed. -/
def dropReturn (comment : Option String) : Option String :=
  comment.map fun s => String.ofList (Text.dropReturn s.toList)

theorem mem_of_comment {text : String} {l : Line} (h : parse text = .ok l) {s : String}
    (hs : s ∈ l.comment) : ∀ c ∈ s.toList, c ∈ text.toList := by
  obtain ⟨code, _, htext, _, _⟩ := spells_of_parse h
  intro c hc
  rw [htext.eq, Option.mem_def.mp hs]
  exact List.mem_append_right _ (List.mem_cons_of_mem _ hc)

/-- The comment is at the end of a canonical text, and the text in front of it does not depend on
it. -/
theorem exists_render_of_comment (l : Line) :
    ∃ front : List Char, ∀ s : String,
      (l.recomment fun _ => some s).render.toList = front ++ ';' :: s.toList := by
  refine ⟨(l.label.elim "" (· ++ ": ") ++ if l.isEmpty then "" else l.renderCode ++ " ").toList,
    fun s => ?_⟩
  cases hlabel : l.label <;> cases hempty : l.isEmpty <;>
    simp_all [render, recomment, isEmpty, renderCode]

namespace Canonical
variable {l : Line} (h : l.Canonical)
include h

theorem recomment (f : Option String → Option String) : (l.recomment f).Canonical :=
  ⟨h.semicolon, h.colon, h.label, h.opcode, h.opcode_start, h.params_eq_nil, h.first_of_second,
    h.param, h.first⟩

theorem feed_notMem_render (hcomment : ∀ s ∈ l.comment, '\n' ∉ s.toList) :
    '\n' ∉ l.render.toList := by
  intro hc
  rcases h.eq_blank_of_isWhite hc rfl with hblank | ⟨s, hs, hc⟩
  · cases hblank
  · exact hcomment s hs hc

theorem dropReturn_render :
    Text.dropReturn l.render.toList = (l.recomment Line.dropReturn).render.toList := by
  cases hcomment : l.comment with
  | none =>
    have hdrop : l.recomment Line.dropReturn = l.recomment fun _ => none :=
      recomment_congr (by rw [hcomment]; rfl)
    rw [hdrop, recomment_const hcomment]
    exact Text.dropReturn_of_last (h.unbroken_render hcomment).last
  | some s =>
    have hdrop : l.recomment Line.dropReturn =
        l.recomment fun _ => some (String.ofList (Text.dropReturn s.toList)) :=
      recomment_congr (by rw [hcomment]; rfl)
    obtain ⟨front, hfront⟩ := exists_render_of_comment l
    have hrender := hfront s
    rw [recomment_const hcomment, List.append_cons] at hrender
    -- The semicolon keeps a carriage return of the comment apart from what is in front of it.
    have hlast : (front ++ [';']).getLast? ≠ some '\r' := by simp
    rw [hdrop, hfront, hrender, String.toList_ofList, Text.dropReturn_append hlast,
      ← List.append_cons]

theorem parse_dropReturn : parse (String.ofList (Text.dropReturn l.render.toList)) =
    .ok (l.recomment Line.dropReturn) := by
  rw [h.dropReturn_render, String.ofList_toList]
  exact (h.recomment _).parse_render

end Canonical

end Line

namespace Measured

theorem exists_mnemonic_eq (m : Measured) (hop : m.statement.line.opcode ≠ "") :
    ∃ op : Op, op.mnemonic = m.statement.line.opcode := by
  have hlength := m.length_eq
  rw [Statement.length_eq] at hlength
  obtain ⟨e, he, _⟩ := Except.map_eq_ok_iff.mp hlength
  cases e with
  | none => exact absurd (String.isEmpty_iff.mp (Statement.encoding_eq_none_iff.mp he)) hop
  | some e =>
    obtain ⟨_, op, hmnemonic, _⟩ := Statement.encoding_eq_some he
    exact ⟨op, Op.ofMnemonic?_eq_some_iff.mp hmnemonic⟩

section Read
variable {texts : List String} {ms : List Measured} (hread : Read texts ms)
include hread

theorem exists_parse_of_read {m : Measured} (hm : m ∈ ms) :
    ∃ text ∈ texts, Line.parse text = .ok m.statement.line := by
  obtain ⟨text, htext, hparse⟩ := Except.exists_of_forall₂ hread.flip m hm
  obtain ⟨line, hline, hof⟩ := Statement.parse_eq_ok_iff.mp hparse
  obtain rfl := Statement.line_of_ofLine hof
  exact ⟨text, htext, hline⟩

theorem label_free_of_read {m : Measured} (hm : m ∈ ms) :
    ∀ s ∈ m.label, ∀ c ∈ s.toList, Line.isForbidden c = false := by
  obtain ⟨text, _, hparse⟩ := exists_parse_of_read hread hm
  obtain ⟨_, _, _, hcode, _⟩ := Line.spells_of_parse hparse
  exact fun s hs => (hcode.label_free s hs).2

/-- A colon in an operand is in the name of a label, and no declared label has one. -/
theorem colon_notMem_params (hclosed : Closed ms) {m : Measured} (hm : m ∈ ms)
    (hop : m.statement.line.opcode ≠ "") : ∀ s ∈ m.statement.line.params, ':' ∉ s.toList := by
  intro s hs hc
  obtain ⟨operands, hoperands, heq⟩ := Except.map_eq_ok_iff.mp m.ofLine_eq
  obtain ⟨o, ho, hparse⟩ := Except.exists_of_forall₂ (Except.mapM_eq_ok_iff.mp hoperands) s hs
  rcases Operand.mem_of_parse hparse hc with hc | hc | ⟨name, hname, hc⟩
  · simp at hc
  · cases hc
  · have hmem : name ∈ m.statement.labels := by
      rw [← heq]
      exact List.mem_filterMap.mpr ⟨o, ho, by rw [Operand.label?, hname]⟩
    obtain ⟨n, hn, hlabel⟩ := hclosed m hm hop name hmem
    cases label_free_of_read hread hn name hlabel _ hc

theorem canonical_of_closed (hclosed : Closed ms) {m : Measured} (hm : m ∈ ms) :
    m.statement.line.Canonical := by
  obtain ⟨text, _, hparse⟩ := exists_parse_of_read hread hm
  have hspells := Line.spells_of_parse hparse
  refine Line.canonical_of_spells hspells fun _ => List.forall_mem_cons.mpr ?_
  by_cases hop : m.statement.line.opcode = ""
  · obtain ⟨_, _, _, _, hbody⟩ := hspells
    have hparams : m.statement.line.params = [] := hbody.params_eq_nil hop
    simp [hop, hparams]
  · refine ⟨fun hc => ?_, colon_notMem_params hread hclosed hm hop⟩
    obtain ⟨op, hmnemonic⟩ := m.exists_mnemonic_eq hop
    rw [← hmnemonic] at hc
    cases (op.plain_mnemonic.free _ hc).1

theorem feed_notMem_render_of_read (hclosed : Closed ms)
    (hfeed : ∀ text ∈ texts, '\n' ∉ text.toList) {m : Measured} (hm : m ∈ ms) :
    '\n' ∉ m.statement.line.render.toList := by
  obtain ⟨text, htext, hparse⟩ := exists_parse_of_read hread hm
  apply (canonical_of_closed hread hclosed hm).feed_notMem_render
  exact fun s hs hc => hfeed text htext (Line.mem_of_comment hparse hs _ hc)

end Read

end Measured

open Measured

/-- The texts of a listing, each with a line feed behind it. -/
def listingSource (rows : List ListingRow) : String :=
  String.join (rows.map fun row => row.source ++ "\n")

theorem read_listing {texts : List String} {ms : List Measured} (hread : Read texts ms)
    (hclosed : Closed ms) : Read
      (ms.map fun m => String.ofList (Text.dropReturn m.statement.line.render.toList))
      (ms.map (recomment Line.dropReturn)) := by
  unfold Read
  rw [List.forall₂_map_left_iff, List.forall₂_map_right_iff, List.forall₂_same]
  intro m hm
  have hparse := (canonical_of_closed hread hclosed hm).parse_dropReturn
  exact Statement.parse_eq_ok_iff.mpr ⟨_, hparse, (m.recomment _).ofLine_eq⟩

theorem lines_listingSource {texts : List String} {ms : List Measured} (hread : Read texts ms)
    (hclosed : Closed ms) (hfeed : ∀ text ∈ texts, '\n' ∉ text.toList) {rows : List ListingRow}
    (hrows : rows.map ListingRow.source = ms.map fun m => m.statement.line.render) :
    Text.lines (listingSource rows) =
      ms.map fun m => String.ofList (Text.dropReturn m.statement.line.render.toList) := by
  have hjoin : listingSource rows =
      String.join ((ms.map fun m => m.statement.line.render).map (· ++ "\n")) := by
    rw [← hrows, List.map_map]
    rfl
  rw [hjoin, Text.lines_join, List.map_map]
  · rfl
  rw [List.forall_mem_map]
  exact fun m hm => feed_notMem_render_of_read hread hclosed hfeed hm

/-- The listing of an assembled program is a source of the program: it assembles to the same machine
code, with the same labels and with each line at the same place. -/
theorem assemble_listingSource {source : String} {config : Config} {p : Program}
    (h : assemble source config = .ok p) :
    ∃ rows, p.listing = .ok rows ∧ ∃ q, assemble (listingSource rows) config = .ok q ∧
      (∃ code, p.machineCode = .ok code ∧ q.machineCode = .ok code) ∧
      q.labels = p.labels ∧ q.placements = p.placements := by
  obtain ⟨ms, hread, hfit, hclosed, rfl⟩ := assembleLines_eq_ok_iff.mp h
  obtain ⟨rows, hrows⟩ : ∃ rows, (Program.ofMeasured config ms).listing = .ok rows := by
    have hencode := (Program.forall_exists_encode_iff_closed config ms).mpr hclosed
    refine Except.exists_mapM_eq_ok_iff.mpr fun l hl => ?_
    obtain ⟨w, hw⟩ := hencode l hl
    exact ⟨_, Except.map_eq_ok_iff.mpr ⟨w, hw, rfl⟩⟩
  have hsource : rows.map ListingRow.source = ms.map fun m => m.statement.line.render := by
    rw [Program.map_source_of_listing hrows, Program.lines_ofMeasured]
    exact map_placed ms fun _ _ => rfl
  have hlines := lines_listingSource hread hclosed (fun _ => Text.feed_notMem_of_mem_lines) hsource
  obtain ⟨code, hcode⟩ := (Program.exists_machineCode_iff_closed config ms).mpr hclosed
  refine ⟨rows, hrows, (Program.ofMeasured config ms).recomment Line.dropReturn, ?_,
    ⟨code, hcode, ?_⟩, Program.labels_recomment _ _, Program.placements_recomment _ _⟩
  · unfold assemble
    rw [hlines]
    exact assembleLines_recomment hread (read_listing hread hclosed) h
  · rw [Program.machineCode_recomment, hcode]

/-- A label that is declared behind its use, a blank line, and a comment that ends with a carriage
return. -/
theorem assemble_listingSource_return : ∃ p rows q,
    assemble "JMP #end\n\nend: HLT ;x\r" {} = .ok p ∧ p.listing = .ok rows ∧
      listingSource rows = "JMP #end\n\nend: HLT ;x\r\n" ∧
      assemble (listingSource rows) {} = .ok q ∧ q.machineCode = .ok [0xEE, 2, 0xF9] := by
  obtain ⟨p, rows, hp, hrows, hsource, hcode⟩ : ∃ p rows,
      assemble "JMP #end\n\nend: HLT ;x\r" {} = .ok p ∧ p.listing = .ok rows ∧
        listingSource rows = "JMP #end\n\nend: HLT ;x\r\n" ∧
        p.machineCode = .ok [0xEE, 2, 0xF9] := ⟨_, _, rfl, rfl, rfl, rfl⟩
  obtain ⟨rows', hrows', q, hq, ⟨code, hcode', hqcode⟩, _, _⟩ := assemble_listingSource hp
  obtain rfl : rows = rows' := by simpa [hrows] using hrows'
  obtain rfl : _ = code := by simpa [hcode] using hcode'
  exact ⟨p, rows, q, hp, hrows, hsource, hq, hqcode⟩

end Breadboard
