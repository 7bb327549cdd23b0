import Mathlib.Data.List.GetD
import Mathlib.Data.List.Sort
import Breadboard.Proofs.Agreement
import Breadboard.Proofs.Answers
import Breadboard.Proofs.LineEnds

/-! Blank lines. A program takes an empty line wherever it is asked to, even where its memory is full,
and answers what follows as if the line were not there. A line that is refused has no more effect than
that, so the lines that are refused can be emptied. What then is left of the report are the labels that
are never bound, with the numbers and the addresses that they had. -/

set_option autoImplicit false

namespace Breadboard

open Measured

namespace Text

def blankPieces (ns : List Nat) (n : Nat) (ps : List (List Char × List Char)) :
    List (List Char × List Char) :=
  (ps.zipIdx n).map fun p => (if p.2 ∈ ns then [] else p.1.1, p.1.2)

/-- Empties the lines of a text with these numbers, counted from one. -/
def blankLines (ns : List Nat) (s : String) : String :=
  String.ofList (joinPieces (blankPieces ns 1 (splitPieces s.toList)))

theorem blankPieces_cons (ns : List Nat) (n : Nat) (l e : List Char)
    (ps : List (List Char × List Char)) : blankPieces ns n ((l, e) :: ps) =
      (if n ∈ ns then [] else l, e) :: blankPieces ns (n + 1) ps := rfl

theorem getD_cons_blank {ns : List Nat} {n : Nat} {rest ls : List (List Char)}
    (h : ∀ i, rest.getD i [] = if n + 1 + i ∈ ns then [] else ls.getD i []) (l : List Char) (i : Nat) :
    ((if n ∈ ns then [] else l) :: rest).getD i [] = if n + i ∈ ns then [] else (l :: ls).getD i [] := by
  cases i with
  | zero => rfl
  | succ i =>
    have hn : n + (i + 1) = n + 1 + i := by omega
    rw [List.getD_cons_succ, List.getD_cons_succ, hn]
    exact h i

/-- Only an empty last line without an end is not a line any more. -/
theorem Pieces.getD_splitLines_blank {ps : List (List Char × List Char)} (h : Pieces ps)
    (ns : List Nat) (n i : Nat) : (splitLines (joinPieces (blankPieces ns n ps))).getD i [] =
      if n + i ∈ ns then [] else (ps.map Prod.fst).getD i [] := by
  induction h generalizing n i with
  | nil => simp [blankPieces, joinPieces, splitLines]
  | last hfeed hne =>
    rw [blankPieces_cons, joinPieces_cons]
    by_cases hn : n ∈ ns
    · cases i <;> simp [hn, blankPieces, joinPieces, splitLines]
    · cases i <;> simp [hn, blankPieces, joinPieces, splitLines_singleton hfeed hne]
  | @feed l ps hl _ ih =>
    have hunbroken : Unbroken (if n ∈ ns then [] else l) := by
      split
      · exact ⟨by simp, by simp⟩
      · exact hl
    rw [blankPieces_cons, joinPieces_cons, List.append_assoc, List.singleton_append,
      splitLines_append hunbroken]
    exact getD_cons_blank (ih (n + 1)) l i
  | @crlf l ps hfeed _ ih =>
    have hfeed' : '\n' ∉ if n ∈ ns then [] else l := by
      split
      · simp
      · exact hfeed
    rw [blankPieces_cons, joinPieces_cons, List.append_assoc, List.cons_append,
      List.singleton_append, splitLines_return hfeed']
    exact getD_cons_blank (ih (n + 1)) l i

theorem getD_lines_blankLines (ns : List Nat) (s : String) (i : Nat) :
    (lines (blankLines ns s)).getD i "" = if i + 1 ∈ ns then "" else (lines s).getD i "" := by
  have hpieces := pieces_splitPieces s.toList
  have hlines := hpieces.splitLines_joinPieces
  rw [joinPieces_splitPieces] at hlines
  have hblank := hpieces.getD_splitLines_blank ns 1 i
  rw [← hlines, Nat.add_comm] at hblank
  unfold lines blankLines
  rw [String.toList_ofList, show "" = String.ofList [] from rfl, List.getD_map, hblank,
    List.getD_map, apply_ite String.ofList]

end Text

theorem eq_of_sorted_lines {es fs : List LineError} (hes : (es.map LineError.line).Pairwise (· < ·))
    (hfs : (fs.map LineError.line).Pairwise (· < ·)) (h : ∀ e, e ∈ es ↔ e ∈ fs) : es = fs := by
  have hirrefl : Std.Irrefl fun e f : LineError => e.line < f.line := ⟨fun e => Nat.lt_irrefl e.line⟩
  have hantisymm : Std.Antisymm fun e f : LineError => e.line < f.line :=
    ⟨fun _ _ hlt hgt => absurd hlt (Nat.lt_asymm hgt)⟩
  exact (List.pairwise_map.mp hes).eq_of_mem_iff (List.pairwise_map.mp hfs) h

namespace Program

theorem labels_of_parse_blank {s : Statement} (h : Statement.parse "" = .ok s) : s.labels = [] := by
  obtain rfl := Except.ok.inj h
  rfl

theorem exists_blank : ∃ m : Measured, Statement.parse "" = .ok m.statement ∧ m.label = none ∧
    m.length = 0 :=
  ⟨⟨_, 0, rfl, rfl⟩, rfl, rfl, rfl⟩

theorem addSource_blank {p : Program} (h : p.size ≤ addressSpace) :
    ∃ q, p.addSource "" = .ok q ∧ p.Agrees q := by
  obtain ⟨m, hm, hlabel, hlength⟩ := exists_blank
  have haccepts : p.Accepts m := ⟨by rwa [hlength], by simp [hlabel]⟩
  refine ⟨p.extend m, addSource_eq_ok_iff.mpr ⟨m, hm, haccepts, rfl⟩, rfl, ?_, ?_⟩
  · unfold extend
    rw [hlabel, Option.elim_none]
  · exact congrArg (p.size + ·) hlength

theorem agrees_after_blank {p : Program} (h : p.size ≤ addressSpace) :
    p.Agrees (p.after (.source "")) := by
  obtain ⟨q, hq, hagrees⟩ := addSource_blank h
  rwa [after_of_ok (r := .source "") hq]

theorem Agrees.after {p q : Program} (h : p.Agrees q) (text : String) :
    (p.after (.source text)).Agrees (q.after (.source text)) := by
  rcases h.addSource_cases text with ⟨m, _, hp, hq⟩ | ⟨e, hp, hq⟩
  · rw [after_of_ok (r := .source text) hp, after_of_ok (r := .source text) hq]
    exact h.extend m
  · rwa [after_of_error (r := .source text) hp, after_of_error (r := .source text) hq]

section Line
variable (config : Config) (texts : List String)

theorem size_upTo_le (i : Nat) : (upTo config texts i).size ≤ addressSpace :=
  (invariant_run config _).size_le

/-- The program goes on with the next line, or with an empty one behind the last line. -/
theorem agrees_upTo_succ (i : Nat) :
    (upTo config texts (i + 1)).Agrees ((upTo config texts i).after (.source (texts.getD i ""))) := by
  by_cases hi : i < texts.length
  · have hnext : upTo config texts (i + 1) =
        (upTo config texts i).after (.source (texts.getD i "")) := by
      unfold upTo run
      rw [List.take_add_one, List.map_append, List.foldl_append, List.getElem?_eq_getElem hi,
        List.getD_eq_getElem _ _ hi]
      rfl
    rw [hnext]
    exact .refl _
  · have hstay : upTo config texts (i + 1) = upTo config texts i := by
      unfold upTo
      rw [List.take_of_length_le (by omega), List.take_of_length_le (by omega)]
    rw [hstay, List.getD_eq_default _ _ (by omega)]
    exact agrees_after_blank (size_upTo_le config texts i)

theorem mem_lines_faults_iff (i : Nat) : i + 1 ∈ ((empty config).faults 1 texts).map LineError.line ↔
    ∃ e, (upTo config texts i).addSource (texts.getD i "") = .error e := by
  rw [List.mem_map]
  constructor
  · rintro ⟨e, he, hline⟩
    obtain ⟨j, text, htext, hadd, hj⟩ := mem_faults_iff.mp he
    obtain rfl : i = j := by omega
    rw [List.getD_eq_getElem?_getD, htext]
    exact ⟨e.error, hadd⟩
  · rintro ⟨e, hadd⟩
    cases htext : texts[i]? with
    | none =>
      -- Behind the last line there is nothing to refuse.
      obtain ⟨q, hq, _⟩ := addSource_blank (size_upTo_le config texts i)
      rw [List.getD_eq_getElem?_getD, htext, Option.getD_none, hq] at hadd
      cases hadd
    | some text =>
      rw [List.getD_eq_getElem?_getD, htext] at hadd
      exact ⟨⟨i + 1, e⟩, mem_faults_iff.mpr ⟨i, text, htext, hadd, rfl⟩, rfl⟩

/-- The labels that are never bound, read off the statements that are taken. -/
theorem mem_unresolved_iff_accepts (e : LineError) :
    e ∈ ((empty config).takeAll texts).unresolved ((empty config).numbers 1 texts) ↔
      ∃ i m name, Statement.parse (texts.getD i "") = .ok (statement m) ∧
        (upTo config texts i).Accepts m ∧ name ∈ m.statement.labels ∧
        ((empty config).takeAll texts).labels.find? name = none ∧
        e = ⟨i + 1, .unresolvedLabel name (upTo config texts i).size⟩ := by
  rw [mem_unresolved_iff]
  constructor
  · rintro ⟨i, text, q, l, name, htext, hadd, hl, hname, hnone, rfl⟩
    obtain ⟨m, hm, haccepts, rfl⟩ := addSource_eq_ok_iff.mp hadd
    obtain rfl : ⟨(upTo config texts i).size, m.length, m.statement⟩ = l := by
      simpa [extend] using hl
    rw [← Option.getD_some (a := text), ← htext, ← List.getD_eq_getElem?_getD] at hm
    exact ⟨i, m, name, hm, haccepts, hname, hnone, rfl⟩
  · rintro ⟨i, m, name, hm, haccepts, hname, hnone, rfl⟩
    cases htext : texts[i]? with
    | none =>
      rw [List.getD_eq_getElem?_getD, htext, Option.getD_none] at hm
      rw [labels_of_parse_blank hm] at hname
      cases hname
    | some text =>
      rw [List.getD_eq_getElem?_getD, htext] at hm
      exact ⟨i, text, _, ⟨(upTo config texts i).size, m.length, m.statement⟩, name, htext,
        addSource_eq_ok_iff.mpr ⟨m, hm, haccepts, rfl⟩, by simp [extend], hname, hnone, rfl⟩

end Line

/-- The second text has an empty line where the first one has a line that is refused, and is the same
elsewhere. -/
def Blanks (config : Config) (texts texts' : List String) : Prop :=
  ∀ i, texts'.getD i "" = match (upTo config texts i).addSource (texts.getD i "") with
    | .ok _ => texts.getD i ""
    | .error _ => ""

namespace Blanks
variable {config : Config} {texts texts' : List String} (h : Blanks config texts texts')
include h

theorem agrees_upTo (i : Nat) : (upTo config texts i).Agrees (upTo config texts' i) := by
  induction i with
  | zero => exact .refl _
  | succ i ih =>
    have hline : ((upTo config texts i).after (.source (texts.getD i ""))).Agrees
        ((upTo config texts' i).after (.source (texts'.getD i ""))) := by
      rw [h i]
      cases hadd : (upTo config texts i).addSource (texts.getD i "") with
      | ok q => exact ih.after _
      | error e =>
        rw [after_of_error (r := .source (texts.getD i "")) hadd]
        exact ih.trans (agrees_after_blank (size_upTo_le config texts' i))
    exact (agrees_upTo_succ config texts i).trans
      (hline.trans (agrees_upTo_succ config texts' i).symm)

theorem agrees_takeAll : ((empty config).takeAll texts).Agrees ((empty config).takeAll texts') := by
  -- One text can have more lines than the other, but only empty ones.
  have hlast := h.agrees_upTo (max texts.length texts'.length)
  unfold upTo at hlast
  rwa [List.take_of_length_le (Nat.le_max_left _ _), List.take_of_length_le (Nat.le_max_right _ _)]
    at hlast

theorem faults_eq_nil : (empty config).faults 1 texts' = [] := by
  rw [List.eq_nil_iff_forall_not_mem]
  intro e he
  obtain ⟨i, text, htext, hadd, _⟩ := mem_faults_iff.mp he
  have hline := h i
  rw [List.getD_eq_getElem?_getD, htext, Option.getD_some] at hline
  subst hline
  rcases (h.agrees_upTo i).addSource_cases (texts.getD i "") with ⟨m, _, hp, hq⟩ | ⟨fault, hp, hq⟩
  · rw [hp, hq] at hadd
    cases hadd
  · obtain ⟨q, hq, _⟩ := addSource_blank (size_upTo_le config texts' i)
    rw [hp, hq] at hadd
    cases hadd

theorem unresolved_eq :
    ((empty config).takeAll texts').unresolved ((empty config).numbers 1 texts') =
      ((empty config).takeAll texts).unresolved ((empty config).numbers 1 texts) := by
  refine eq_of_sorted_lines (sorted_unresolved config 1 texts') (sorted_unresolved config 1 texts) ?_
  intro e
  rw [mem_unresolved_iff_accepts, mem_unresolved_iff_accepts]
  refine exists_congr fun i => ?_
  have hline := h i
  cases hadd : (upTo config texts i).addSource (texts.getD i "") with
  | ok q =>
    rw [hadd] at hline
    simp only [hline, (h.agrees_upTo i).accepts_iff, (h.agrees_upTo i).size_eq,
      h.agrees_takeAll.labels_eq]
  | error fault =>
    rw [hadd] at hline
    constructor
    -- The line uses no label in one text, and is not taken in the other.
    · rintro ⟨m, name, hm, _, hname, _⟩
      rw [hline] at hm
      rw [labels_of_parse_blank hm] at hname
      cases hname
    · rintro ⟨m, _, hm, haccepts, _⟩
      rw [addSource_eq_ok_iff.mpr ⟨m, hm, haccepts, rfl⟩] at hadd
      cases hadd

end Blanks

theorem blanks_blankLines (config : Config) (source : String) :
    Blanks config (Text.lines source) (Text.lines (Text.blankLines
      (((empty config).faults 1 (Text.lines source)).map LineError.line) source)) := by
  intro i
  rw [Text.getD_lines_blankLines]
  cases hadd : (upTo config (Text.lines source) i).addSource ((Text.lines source).getD i "") with
  | ok q =>
    refine if_neg fun hi => ?_
    obtain ⟨e, he⟩ := (mem_lines_faults_iff config _ i).mp hi
    rw [hadd] at he
    cases he
  | error e => exact if_pos ((mem_lines_faults_iff config _ i).mpr ⟨e, hadd⟩)

section Report
variable (config : Config) (texts : List String)

theorem filter_report : (report config texts).filter (fun e => !e.error.isUnresolved) =
      (empty config).faults 1 texts ∧
    (report config texts).filter (fun e => e.error.isUnresolved) =
      ((empty config).takeAll texts).unresolved ((empty config).numbers 1 texts) := by
  have hrefused : ∀ e ∈ (empty config).faults 1 texts, e.error.isUnresolved = false := by
    intro e he
    obtain ⟨i, text, _, hadd, _⟩ := mem_faults_iff.mp he
    exact (addSource_eq_error_iff.mp hadd).isUnresolved
  have hunbound : ∀ e ∈ ((empty config).takeAll texts).unresolved ((empty config).numbers 1 texts),
      e.error.isUnresolved = true := by
    intro e he
    obtain ⟨i, text, q, l, name, _, _, _, _, _, rfl⟩ := mem_unresolved_iff.mp he
    rfl
  unfold report
  rw [List.filter_append, List.filter_append]
  constructor
  · rw [List.filter_eq_self.mpr, List.filter_eq_nil_iff.mpr, List.append_nil]
    · simpa using hunbound
    · simpa using hrefused
  · rw [List.filter_eq_nil_iff.mpr, List.filter_eq_self.mpr, List.nil_append]
    · exact hunbound
    · simpa using hrefused

end Report

end Program

section Source
variable (source : String) (config : Config)

def assemblyErrors : List LineError :=
  match assemble source config with
  | .ok _ => []
  | .error es => es

/-- The numbers of the lines that are reported for something else than a label that is never bound. -/
def refusedLines : List Nat :=
  ((assemblyErrors source config).filter fun e => !e.error.isUnresolved).map LineError.line

def unboundErrors : List LineError :=
  (assemblyErrors source config).filter fun e => e.error.isUnresolved

variable (h : config.failFast = false)
include h

theorem assemblyErrors_eq : assemblyErrors source config = Program.report config (Text.lines source) := by
  unfold assemblyErrors assemble
  rw [assembleLines_eq, h]
  by_cases hnil : Program.report config (Text.lines source) = []
  · rw [if_pos hnil]
    exact hnil.symm
  · rw [if_neg hnil]
    rfl

/-- With the refused lines emptied, what is reported are the labels that are never bound, just as in the
report of the whole text. If there are none, the text assembles to the labels and the size that it gave
with the refused lines left out. -/
theorem assemble_blankLines :
    (unboundErrors source config = [] →
      ∃ p, assemble (Text.blankLines (refusedLines source config) source) config = .ok p ∧
        (Program.upTo config (Text.lines source) (Text.lines source).length).Agrees p) ∧
    (unboundErrors source config ≠ [] →
      assemble (Text.blankLines (refusedLines source config) source) config =
        .error (unboundErrors source config)) := by
  obtain ⟨hrefused, hunbound⟩ := Program.filter_report config (Text.lines source)
  have hblanks := Program.blanks_blankLines config source
  unfold refusedLines unboundErrors assemble
  rw [assemblyErrors_eq source config h, hrefused, hunbound, assembleLines_eq, Program.report,
    hblanks.faults_eq_nil, hblanks.unresolved_eq, List.nil_append, h]
  constructor
  · intro hnil
    rw [if_pos hnil, Program.upTo_length]
    exact ⟨_, rfl, hblanks.agrees_takeAll⟩
  · intro hne
    rw [if_neg hne]
    rfl

end Source

/-- An unknown operation and a redefinition, which is the last line and has no end, around two labels
that are never bound; and a program without such labels, which goes on behind the unknown operation. -/
theorem assemble_blankLines_mixed : ({} : Config).failFast = false ∧
    (unboundErrors "JMP #end\nFOO\n\nx: CALL #y\nx: HLT" {} ≠ [] ∧
      assemble "JMP #end\n\n\nx: CALL #y\n" {} =
        .error [⟨1, .unresolvedLabel "end" 0⟩, ⟨4, .unresolvedLabel "y" 2⟩]) ∧
    unboundErrors "JMP #x\nFOO\nx: HLT" {} = [] ∧
      ∃ p, assemble "JMP #x\n\nx: HLT" {} = .ok p ∧ p.size = 3 := by
  have hrefused : refusedLines "JMP #end\nFOO\n\nx: CALL #y\nx: HLT" {} = [2, 5] := by decide +kernel
  have hunbound : unboundErrors "JMP #end\nFOO\n\nx: CALL #y\nx: HLT" {} =
      [⟨1, .unresolvedLabel "end" 0⟩, ⟨4, .unresolvedLabel "y" 2⟩] := by decide +kernel
  have hblank : Text.blankLines [2, 5] "JMP #end\nFOO\n\nx: CALL #y\nx: HLT" =
      "JMP #end\n\n\nx: CALL #y\n" := by decide +kernel
  have hne : unboundErrors "JMP #end\nFOO\n\nx: CALL #y\nx: HLT" {} ≠ [] := by
    rw [hunbound]
    exact List.cons_ne_nil _ _
  have hnil : unboundErrors "JMP #x\nFOO\nx: HLT" {} = [] := by decide +kernel
  have hrefused' : refusedLines "JMP #x\nFOO\nx: HLT" {} = [2] := by decide +kernel
  have hblank' : Text.blankLines [2] "JMP #x\nFOO\nx: HLT" = "JMP #x\n\nx: HLT" := by decide +kernel
  have herror := (assemble_blankLines "JMP #end\nFOO\n\nx: CALL #y\nx: HLT" {} rfl).2 hne
  obtain ⟨p, hp, hagrees⟩ := (assemble_blankLines "JMP #x\nFOO\nx: HLT" {} rfl).1 hnil
  rw [hrefused, hblank, hunbound] at herror
  rw [hrefused', hblank'] at hp
  exact ⟨rfl, ⟨hne, herror⟩, hnil, p, hp, hagrees.size_eq⟩

end Breadboard
