import Breadboard.Proofs.Emission
import Breadboard.Proofs.Report
import Breadboard.Proofs.Resolving

/-! The report of an assembly, line by line. Each line of a text is answered by the program that the
lines in front of it leave. The lines that are refused are reported with their answers; the others are
placed, and of these the report names the ones with a label that the whole text does not bind. The
numbers in the report come from a list that is kept apart from the placed lines, and the two go in
step whatever is refused in between. -/

set_option autoImplicit false

namespace Breadboard

namespace Program

def answers (p : Program) (n : Nat) : List String → List (Nat × Except AssemblyError Program)
  | [] => []
  | text :: texts => (n, p.addSource text) :: (p.after (.source text)).answers (n + 1) texts

def fault? : Nat × Except AssemblyError Program → Option LineError
  | (_, .ok _) => none
  | (n, .error e) => some ⟨n, e⟩

def placed? : Nat × Except AssemblyError Program → Option (Placed × Nat)
  | (n, .ok q) => q.lines.getLast?.map fun l => (l, n)
  | (_, .error _) => none

theorem getElem?_answers (p : Program) (n : Nat) (texts : List String) (i : Nat) :
    (p.answers n texts)[i]? =
      texts[i]?.map fun text => (n + i, (p.takeAll (texts.take i)).addSource text) := by
  induction texts generalizing p n i with
  | nil => rfl
  | cons text texts ih =>
    cases i with
    | zero => rfl
    | succ i =>
      unfold answers
      rw [List.getElem?_cons_succ, List.getElem?_cons_succ, ih, List.take_succ_cons]
      have hn : n + 1 + i = n + (i + 1) := by omega
      rw [hn]
      rfl

theorem sorted_answers (p : Program) (n : Nat) (texts : List String) :
    (p.answers n texts).Pairwise fun x y => x.1 < y.1 := by
  rw [List.pairwise_iff_getElem]
  intro i j hi hj hij
  have hx := getElem?_answers p n texts i
  have hy := getElem?_answers p n texts j
  rw [List.getElem?_eq_getElem hi] at hx
  rw [List.getElem?_eq_getElem hj] at hy
  obtain ⟨_, _, hx⟩ := Option.map_eq_some_iff.mp hx.symm
  obtain ⟨_, _, hy⟩ := Option.map_eq_some_iff.mp hy.symm
  rw [← hx, ← hy]
  simpa using hij

theorem faults_eq_filterMap (p : Program) (n : Nat) (texts : List String) :
    p.faults n texts = (p.answers n texts).filterMap fault? := by
  induction texts generalizing p n with
  | nil => rfl
  | cons text texts ih =>
    unfold faults answers
    cases h : p.addSource text with
    | ok q =>
      rw [after_of_ok (r := .source text) h]
      exact ih q (n + 1)
    | error e =>
      rw [after_of_error (r := .source text) h]
      exact congrArg (_ :: ·) (ih p (n + 1))

theorem lines_of_addSource {p q : Program} {text : String} (h : p.addSource text = .ok q) :
    ∃ m : Measured, Statement.parse text = .ok m.statement ∧
      q.lines = p.lines ++ [⟨p.size, m.length, m.statement⟩] := by
  obtain ⟨m, hm, _, rfl⟩ := addSource_eq_ok_iff.mp h
  exact ⟨m, hm, rfl⟩

theorem placed?_of_lines {p q : Program} {l : Placed} (h : q.lines = p.lines ++ [l]) (n : Nat) :
    placed? (n, .ok q) = some (l, n) := by
  simp [placed?, h]

theorem numbers_eq_map (p : Program) (n : Nat) (texts : List String) :
    p.numbers n texts = ((p.answers n texts).filterMap placed?).map Prod.snd := by
  induction texts generalizing p n with
  | nil => rfl
  | cons text texts ih =>
    unfold numbers answers
    cases h : p.addSource text with
    | ok q =>
      obtain ⟨m, _, hlines⟩ := lines_of_addSource h
      rw [after_of_ok (r := .source text) h, List.filterMap_cons_some (placed?_of_lines hlines n),
        List.map_cons, ← ih]
    | error e =>
      rw [after_of_error (r := .source text) h]
      exact ih p (n + 1)

theorem lines_takeAll (p : Program) (n : Nat) (texts : List String) : (p.takeAll texts).lines =
    p.lines ++ ((p.answers n texts).filterMap placed?).map Prod.fst := by
  induction texts generalizing p n with
  | nil => simp [takeAll, answers]
  | cons text texts ih =>
    unfold answers
    cases h : p.addSource text with
    | ok q =>
      obtain ⟨m, _, hlines⟩ := lines_of_addSource h
      rw [takeAll_cons_of_ok h, ih q (n + 1), after_of_ok (r := .source text) h,
        List.filterMap_cons_some (placed?_of_lines hlines n), List.map_cons, hlines,
        List.append_assoc]
      rfl
    | error e =>
      rw [takeAll_cons_of_error h, after_of_error (r := .source text) h]
      exact ih p (n + 1)

theorem zip_lines_numbers (config : Config) (n : Nat) (texts : List String) :
    ((empty config).takeAll texts).lines.zip ((empty config).numbers n texts) =
      ((empty config).answers n texts).filterMap placed? := by
  have hlines := lines_takeAll (empty config) n texts
  rw [hlines, numbers_eq_map, show (empty config).lines = [] from rfl, List.nil_append,
    List.zip_map']
  simp

theorem unresolved_eq_filterMap (config : Config) (n : Nat) (texts : List String) :
    ((empty config).takeAll texts).unresolved ((empty config).numbers n texts) =
      ((empty config).answers n texts).filterMap fun a =>
        (placed? a).bind (Scan.emissionError? ((empty config).takeAll texts)) := by
  unfold unresolved
  rw [zip_lines_numbers, List.filterMap_filterMap]

/-- The program that the first `i` lines of a text leave, without those that it refuses. -/
def upTo (config : Config) (texts : List String) (i : Nat) : Program :=
  run config ((texts.take i).map .source)

theorem mem_answers_iff {config : Config} {texts : List String} {n : Nat}
    {answer : Except AssemblyError Program} : (n, answer) ∈ (empty config).answers 1 texts ↔
      ∃ i text, texts[i]? = some text ∧ n = i + 1 ∧ answer = (upTo config texts i).addSource text := by
  rw [List.mem_iff_getElem?]
  simp only [getElem?_answers, Option.map_eq_some_iff, Prod.mk.injEq]
  refine exists_congr fun i => exists_congr fun text => and_congr_right fun _ => ?_
  rw [Nat.add_comm, eq_comm, eq_comm (b := answer)]
  rfl

theorem mem_faults_iff {config : Config} {texts : List String} {e : LineError} :
    e ∈ (empty config).faults 1 texts ↔ ∃ i text, texts[i]? = some text ∧
      (upTo config texts i).addSource text = .error e.error ∧ e.line = i + 1 := by
  rw [faults_eq_filterMap, List.mem_filterMap]
  constructor
  · rintro ⟨⟨n, answer⟩, hmem, hfault⟩
    obtain ⟨i, text, htext, rfl, rfl⟩ := mem_answers_iff.mp hmem
    refine ⟨i, text, htext, ?_⟩
    cases hadd : (upTo config texts i).addSource text with
    | ok q => simp [fault?, hadd] at hfault
    | error fault =>
      obtain rfl : ⟨i + 1, fault⟩ = e := by simpa [fault?, hadd] using hfault
      exact ⟨rfl, rfl⟩
  · rintro ⟨i, text, htext, hadd, hline⟩
    refine ⟨(i + 1, _), mem_answers_iff.mpr ⟨i, text, htext, rfl, rfl⟩, ?_⟩
    rw [hadd, ← hline]
    rfl

theorem emissionError?_eq_some_iff {p : Program} {l : Placed} {n : Nat} {e : LineError} :
    Scan.emissionError? p (l, n) = some e ↔ ∃ fault, p.encode l = .error fault ∧ e = ⟨n, fault⟩ := by
  unfold Scan.emissionError?
  cases p.encode l <;> simp [eq_comm]

theorem emissionError?_of_addSource {p q final : Program} {text : String}
    (h : p.addSource text = .ok q) {l : Placed} (hl : q.lines.getLast? = some l) {n : Nat}
    {e : LineError} : Scan.emissionError? final (l, n) = some e ↔
      ∃ name ∈ l.statement.labels, final.labels.find? name = none ∧
        e = ⟨n, .unresolvedLabel name l.address⟩ := by
  obtain ⟨m, hparse, hlines⟩ := lines_of_addSource h
  obtain rfl : ⟨p.size, m.length, m.statement⟩ = l := by simpa [hlines] using hl
  rw [emissionError?_eq_some_iff]
  constructor
  · rintro ⟨fault, hfault, rfl⟩
    obtain ⟨_, name, hname, hnone, rfl⟩ := (encode_eq_error_iff m.length_eq).mp hfault
    exact ⟨name, hname, hnone, rfl⟩
  · rintro ⟨name, hname, hnone, rfl⟩
    -- A line without an opcode has no operands, so it cannot use the label.
    have hop : m.statement.line.opcode ≠ "" := by
      intro hop
      rw [Statement.labels_of_parse hparse hop] at hname
      cases hname
    exact ⟨_, (encode_eq_error_iff m.length_eq).mpr ⟨hop, name, hname, hnone, rfl⟩, rfl⟩

theorem mem_unresolved_iff {config : Config} {texts : List String} {e : LineError} :
    e ∈ ((empty config).takeAll texts).unresolved ((empty config).numbers 1 texts) ↔
      ∃ i text q l name, texts[i]? = some text ∧ (upTo config texts i).addSource text = .ok q ∧
        q.lines.getLast? = some l ∧ name ∈ l.statement.labels ∧
        ((empty config).takeAll texts).labels.find? name = none ∧
        e = ⟨i + 1, .unresolvedLabel name l.address⟩ := by
  rw [unresolved_eq_filterMap, List.mem_filterMap]
  constructor
  · rintro ⟨⟨n, answer⟩, hmem, herror⟩
    obtain ⟨i, text, htext, rfl, rfl⟩ := mem_answers_iff.mp hmem
    obtain ⟨⟨l, n⟩, hplaced, herror⟩ := Option.bind_eq_some_iff.mp herror
    cases hadd : (upTo config texts i).addSource text with
    | ok q =>
      rw [hadd] at hplaced
      obtain ⟨l, hl, ⟨⟩⟩ := Option.map_eq_some_iff.mp hplaced
      obtain ⟨name, hname, hnone, he⟩ := (emissionError?_of_addSource hadd hl).mp herror
      exact ⟨i, text, q, l, name, htext, hadd, hl, hname, hnone, he⟩
    | error fault => simp [placed?, hadd] at hplaced
  · rintro ⟨i, text, q, l, name, htext, hadd, hl, hname, hnone, he⟩
    refine ⟨(i + 1, _), mem_answers_iff.mpr ⟨i, text, htext, rfl, rfl⟩, ?_⟩
    rw [hadd]
    exact Option.bind_eq_some_iff.mpr ⟨(l, i + 1), Option.map_eq_some_iff.mpr ⟨l, hl, rfl⟩,
      (emissionError?_of_addSource hadd hl).mpr ⟨name, hname, hnone, he⟩⟩

theorem upTo_length (config : Config) (texts : List String) :
    upTo config texts texts.length = (empty config).takeAll texts := by
  unfold upTo
  rw [List.take_length]
  rfl

section Sorted
variable (p : Program) (n : Nat) (texts : List String)

theorem sorted_filterMap_answers {f : Nat × Except AssemblyError Program → Option LineError}
    (hf : ∀ a e, f a = some e → e.line = a.1) :
    (((p.answers n texts).filterMap f).map LineError.line).Pairwise (· < ·) := by
  rw [List.pairwise_map]
  apply (sorted_answers p n texts).filterMap f
  intro a b hab e he e' he'
  rw [hf a e he, hf b e' he']
  exact hab

theorem sorted_faults : ((p.faults n texts).map LineError.line).Pairwise (· < ·) := by
  rw [faults_eq_filterMap]
  apply sorted_filterMap_answers
  rintro ⟨n, answer⟩ e he
  cases answer with
  | ok q => cases he
  | error fault => cases he; rfl

end Sorted

theorem sorted_unresolved (config : Config) (n : Nat) (texts : List String) :
    ((((empty config).takeAll texts).unresolved ((empty config).numbers n texts)).map
      LineError.line).Pairwise (· < ·) := by
  rw [unresolved_eq_filterMap]
  apply sorted_filterMap_answers
  rintro ⟨n, answer⟩ e he
  obtain ⟨⟨l, n'⟩, hl, he⟩ := Option.bind_eq_some_iff.mp he
  obtain ⟨_, _, rfl⟩ := emissionError?_eq_some_iff.mp he
  cases answer with
  | ok q =>
    obtain ⟨_, _, ⟨⟩⟩ := Option.map_eq_some_iff.mp hl
    rfl
  | error fault => cases hl

end Program

/-- What there is to report of lines of text: the lines that are refused, and behind them the ones that
use a label that is never bound. -/
structure Reports (config : Config) (texts : List String) (refused unbound : List LineError) :
    Prop where
  mem_refused : ∀ e, e ∈ refused ↔ ∃ i text, texts[i]? = some text ∧
    (Program.upTo config texts i).addSource text = .error e.error ∧ e.line = i + 1
  mem_unbound : ∀ e, e ∈ unbound ↔ ∃ i text q l name, texts[i]? = some text ∧
    (Program.upTo config texts i).addSource text = .ok q ∧ q.lines.getLast? = some l ∧
    name ∈ l.statement.labels ∧
    (Program.upTo config texts texts.length).labels.find? name = none ∧
    e = ⟨i + 1, .unresolvedLabel name l.address⟩
  refused_sorted : (refused.map LineError.line).Pairwise (· < ·)
  unbound_sorted : (unbound.map LineError.line).Pairwise (· < ·)
  lines_nodup : ((refused ++ unbound).map LineError.line).Nodup
  line_mem : ∀ e ∈ refused ++ unbound, 1 ≤ e.line ∧ e.line ≤ texts.length

section Report
variable (config : Config) (texts : List String)

theorem nodup_lines_report : ((Program.report config texts).map LineError.line).Nodup := by
  have hrefused := Program.sorted_faults (.empty config) 1 texts
  have hunbound := Program.sorted_unresolved config 1 texts
  rw [Program.report, List.map_append, List.nodup_append]
  refine ⟨hrefused.imp Nat.ne_of_lt, hunbound.imp Nat.ne_of_lt, ?_⟩
  -- A line is not both refused and taken.
  intro a ha b hb hab
  obtain ⟨e, he, rfl⟩ := List.mem_map.mp ha
  obtain ⟨e', he', rfl⟩ := List.mem_map.mp hb
  obtain ⟨i, text, htext, hadd, hline⟩ := Program.mem_faults_iff.mp he
  obtain ⟨j, text', q, l, name, htext', hadd', _, _, _, rfl⟩ := Program.mem_unresolved_iff.mp he'
  obtain rfl : i = j := by simpa [hline] using hab
  obtain rfl : text = text' := by simpa [htext] using htext'
  rw [hadd] at hadd'
  cases hadd'

theorem line_of_mem_report {e : LineError} (he : e ∈ Program.report config texts) :
    1 ≤ e.line ∧ e.line ≤ texts.length := by
  have hindex : ∃ i text, texts[i]? = some text ∧ e.line = i + 1 := by
    rcases List.mem_append.mp he with he | he
    · obtain ⟨i, text, htext, _, hline⟩ := Program.mem_faults_iff.mp he
      exact ⟨i, text, htext, hline⟩
    · obtain ⟨i, text, _, _, _, htext, _, _, _, _, rfl⟩ := Program.mem_unresolved_iff.mp he
      exact ⟨i, text, htext, rfl⟩
  obtain ⟨i, text, htext, hline⟩ := hindex
  have hi := (List.getElem?_eq_some_iff.mp htext).1
  omega

/-- Without `failFast`, an assembly reports every line that is refused and every label that is never
bound, each with the number of its line, and succeeds if there are none. -/
theorem assemble_reports (source : String) (config : Config) (h : config.failFast = false) :
    ∃ refused unbound, Reports config (Text.lines source) refused unbound ∧
      assemble source config = if refused ++ unbound = []
        then .ok (Program.upTo config (Text.lines source) (Text.lines source).length)
        else .error (refused ++ unbound) := by
  have hall := Program.upTo_length config (Text.lines source)
  refine ⟨_, _, ⟨fun e => Program.mem_faults_iff, fun e => ?_, Program.sorted_faults _ _ _,
    Program.sorted_unresolved config 1 (Text.lines source), nodup_lines_report _ _,
    fun e => line_of_mem_report _ _⟩, ?_⟩
  · rw [hall]
    exact Program.mem_unresolved_iff
  · unfold assemble
    rw [assembleLines_eq, hall, h]
    rfl

end Report

/-- Two labels that are never bound, an unknown operation and a redefinition, on lines in between. -/
theorem assemble_reports_mixed : ({} : Config).failFast = false ∧ ∃ refused unbound,
    Reports {} (Text.lines "JMP #end\nFOO\n\nx: CALL #y\nx: HLT") refused unbound ∧
      refused ++ unbound = [⟨2, .encode (.unknownOpcode "FOO")⟩, ⟨5, .redefinedLabel "x" 2⟩,
        ⟨1, .unresolvedLabel "end" 0⟩, ⟨4, .unresolvedLabel "y" 2⟩] := by
  refine ⟨rfl, ?_⟩
  obtain ⟨refused, unbound, hreports, hassemble⟩ :=
    assemble_reports "JMP #end\nFOO\n\nx: CALL #y\nx: HLT" {} rfl
  have herrors : assemble "JMP #end\nFOO\n\nx: CALL #y\nx: HLT" {} =
      .error [⟨2, .encode (.unknownOpcode "FOO")⟩, ⟨5, .redefinedLabel "x" 2⟩,
        ⟨1, .unresolvedLabel "end" 0⟩, ⟨4, .unresolvedLabel "y" 2⟩] := by decide +kernel
  rw [herrors] at hassemble
  refine ⟨refused, unbound, hreports, ?_⟩
  split at hassemble
  · cases hassemble
  · exact (Except.error.inj hassemble).symm

end Breadboard
