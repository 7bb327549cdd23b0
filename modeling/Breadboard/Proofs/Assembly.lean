import Breadboard.Proofs.Emission
import Breadboard.Proofs.Report

/-! Assembling without an order of work. Whether a text can be assembled, and to what, is a property
of its statements as a whole: they have to be readable, fit together into the memory, and declare the
labels that they use. Where a label is declared makes no difference to its uses. -/

set_option autoImplicit false

namespace Breadboard

namespace Measured

/-- The statements that lines of text hold, one for each line. -/
def Read (texts : List String) (ms : List Measured) : Prop :=
  texts.Forall₂ (fun text m => Statement.parse text = .ok m.statement) ms

/-- Each label that a statement with an opcode uses is declared by some statement. -/
def Closed (ms : List Measured) : Prop :=
  ∀ m ∈ ms, m.statement.line.opcode ≠ "" → ∀ name ∈ m.statement.labels,
    ∃ n ∈ ms, n.label = some name

theorem Read.unique {texts : List String} {ms ns : List Measured} (hm : Read texts ms)
    (hn : Read texts ns) : ms = ns := by
  unfold Read at hm hn
  induction hm generalizing ns with
  | nil => rw [List.forall₂_nil_left_iff] at hn; exact hn.symm
  | cons h _ ih =>
    obtain ⟨n, ns, hs, hns, rfl⟩ := List.forall₂_cons_left_iff.mp hn
    have hmn : _ = n := eq_of_statement_eq (by simpa [h] using hs)
    rw [ih hns, hmn]

end Measured

open Measured

namespace Program

variable {config : Config} {ms : List Measured}

theorem faults_ofMeasured_eq_nil_iff (h : Fit config ms) (n : Nat) (texts : List String) :
    (ofMeasured config ms).faults n texts = [] ↔ ∃ ns, Read texts ns ∧ Fit config (ms ++ ns) := by
  induction texts generalizing ms n with
  | nil => simpa [faults, Read] using h
  | cons text texts ih =>
    have hcons : (∃ ns, Read (text :: texts) ns ∧ Fit config (ms ++ ns)) ↔
        ∃ m : Measured, Statement.parse text = .ok m.statement ∧ Fit config (ms ++ [m]) ∧
          ∃ ns, Read texts ns ∧ Fit config (ms ++ [m] ++ ns) := by
      unfold Read
      constructor
      · rintro ⟨_, hread, hfit⟩
        obtain ⟨m, ns, hm, hns, rfl⟩ := List.forall₂_cons_left_iff.mp hread
        rw [List.append_cons] at hfit
        exact ⟨m, hm, hfit.of_append, ns, hns, hfit⟩
      · rintro ⟨m, hm, _, ns, hns, hfit⟩
        exact ⟨m :: ns, .cons hm hns, by rwa [List.append_cons]⟩
    rw [hcons]
    unfold faults
    cases hadd : (ofMeasured config ms).addSource text with
    | ok q =>
      obtain ⟨m, hm, haccepts, rfl⟩ := addSource_eq_ok_iff.mp hadd
      have hfit := (accepts_ofMeasured_iff h m).mp haccepts
      simp only [← ofMeasured_concat, ih hfit]
      constructor
      · exact fun hns => ⟨m, hm, hfit, hns⟩
      · rintro ⟨m', hm', _, hns⟩
        rwa [eq_of_statement_eq (m := m) (n := m') (by simpa [hm] using hm')]
    | error e =>
      refine ⟨fun h => absurd h (List.cons_ne_nil _ _), ?_⟩
      rintro ⟨m, hm, hfit, _⟩
      have hok := addSource_eq_ok_iff.mpr ⟨m, hm, (accepts_ofMeasured_iff h m).mpr hfit, rfl⟩
      rw [hadd] at hok
      cases hok

theorem takeAll_ofMeasured {texts : List String} {ns : List Measured} (hread : Read texts ns)
    (hfit : Fit config (ms ++ ns)) :
    (ofMeasured config ms).takeAll texts = ofMeasured config (ms ++ ns) := by
  unfold Read at hread
  induction hread generalizing ms with
  | nil => simp [takeAll]
  | cons hm _ ih =>
    rw [List.append_cons] at hfit ⊢
    have haccepts := (accepts_ofMeasured_iff hfit.of_append.of_append _).mpr hfit.of_append
    rw [takeAll_cons_of_ok (addSource_eq_ok_iff.mpr ⟨_, hm, haccepts, rfl⟩), ← ofMeasured_concat]
    exact ih hfit

theorem emissionError?_eq_none_iff {p : Program} {line : Placed × Nat} :
    Scan.emissionError? p line = none ↔ ∃ w, p.encode line.1 = .ok w := by
  unfold Scan.emissionError?
  cases p.encode line.1 <;> simp

theorem unresolved_eq_nil_iff {p : Program} {numbers : List Nat}
    (h : p.lines.length = numbers.length) :
    p.unresolved numbers = [] ↔ ∀ l ∈ p.lines, ∃ w, p.encode l = .ok w := by
  unfold unresolved
  rw [List.filterMap_eq_nil_iff]
  simp only [emissionError?_eq_none_iff]
  have hfst : (p.lines.zip numbers).map Prod.fst = p.lines := List.map_fst_zip (Nat.le_of_eq h)
  constructor
  · intro hall l hl
    rw [← hfst] at hl
    obtain ⟨line, hline, rfl⟩ := List.mem_map.mp hl
    exact hall line hline
  · intro hall line hline
    exact hall line.1 (by rw [← hfst]; exact List.mem_map_of_mem hline)

theorem forall_exists_encode_iff_closed (config : Config) (ms : List Measured) :
    (∀ l ∈ (ofMeasured config ms).lines, ∃ w, (ofMeasured config ms).encode l = .ok w) ↔
      Closed ms := by
  have hencode : (∀ l ∈ (ofMeasured config ms).lines,
      ∃ w, (ofMeasured config ms).encode l = .ok w) ↔
        ∀ l ∈ placed ms, (ofMeasured config ms).Resolves l := by
    rw [lines_ofMeasured]
    exact forall₂_congr fun l hl => exists_encode_iff_resolves (length_eq_of_mem_placed hl)
  rw [hencode]
  unfold Resolves Closed
  simp only [isSome_find?_ofMeasured_iff]
  exact forall_mem_placed_iff (P := fun s => s.line.opcode ≠ "" → ∀ name ∈ s.labels,
    ∃ n ∈ ms, n.label = some name)

end Program

theorem Program.exists_machineCode_iff_closed (config : Config) (ms : List Measured) :
    (∃ bytes, (ofMeasured config ms).machineCode = .ok bytes) ↔ Closed ms := by
  unfold machineCode
  rw [Except.exists_map_eq_ok_iff, Except.exists_mapM_eq_ok_iff, forall_exists_encode_iff_closed]

/-- A text assembles exactly if its statements fit together and declare the labels that they use,
and then to the program of these statements. -/
theorem assembleLines_eq_ok_iff {texts : List String} {config : Config} {p : Program} :
    assembleLines texts config = .ok p ↔
      ∃ ms, Read texts ms ∧ Fit config ms ∧ Closed ms ∧ p = .ofMeasured config ms := by
  have hunresolved :=
    Program.unresolved_eq_nil_iff (Program.length_lines_takeAll_empty config 1 texts)
  have hfaults := Program.faults_ofMeasured_eq_nil_iff (fit_nil config) 1 texts
  simp only [Program.ofMeasured_nil, List.nil_append] at hfaults
  have htake {ms : List Measured} (hread : Read texts ms) (hfit : Fit config ms) :
      (Program.empty config).takeAll texts = .ofMeasured config ms := by
    rw [← List.nil_append ms] at hfit
    exact Program.takeAll_ofMeasured hread hfit
  have hok : assembleLines texts config = .ok p ↔
      Program.report config texts = [] ∧ p = (Program.empty config).takeAll texts := by
    rw [assembleLines_eq]
    split
    · next hr => simp [hr, eq_comm (a := p)]
    · next hr => simp [hr]
  rw [hok, Program.report, List.append_eq_nil_iff, hfaults, hunresolved]
  constructor
  · rintro ⟨⟨⟨ms, hread, hfit⟩, hencode⟩, rfl⟩
    rw [htake hread hfit] at hencode ⊢
    exact ⟨ms, hread, hfit, (Program.forall_exists_encode_iff_closed config ms).mp hencode, rfl⟩
  · rintro ⟨ms, hread, hfit, hclosed, rfl⟩
    rw [htake hread hfit]
    exact ⟨⟨⟨ms, hread, hfit⟩, (Program.forall_exists_encode_iff_closed config ms).mpr hclosed⟩, rfl⟩

/-- The assembler, which goes through a text line by line and then through the program once more,
agrees with conditions on the text as a whole. -/
theorem assemble_order_free (source : String) (config : Config) :
    ((∃ p, assemble source config = .ok p) ↔
      ∃ ms, Read (Text.lines source) ms ∧
        (total ms ≤ 256 ∧ ∀ i m, ms[i]? = some m → m.label.isSome → offset ms i ≤ 255) ∧
        (config.allowRedefinition = true ∨ (ms.filterMap label).Nodup) ∧
        ∀ m ∈ ms, m.statement.line.opcode ≠ "" → ∀ name ∈ m.statement.labels,
          ∃ n ∈ ms, n.label = some name) ∧
    ∀ p ms, assemble source config = .ok p → Read (Text.lines source) ms →
      p.lines = ms.mapIdx (fun i m => ⟨offset ms i, m.length, m.statement⟩) ∧
      (∀ name a, p.labels.find? name = some a ↔
        ∃ i, LastDeclares ms name i ∧ a.toNat = offset ms i) ∧
      ∃ codes, ms.Forall₂ (fun m w => m.statement.encode p.labels.find? = .ok w) codes ∧
        p.machineCode = .ok codes.flatten := by
  unfold assemble
  refine ⟨?_, fun p ms hp hread => ?_⟩
  · simp only [assembleLines_eq_ok_iff]
    constructor
    · rintro ⟨p, ms, hread, hfit, hclosed, _⟩
      have hlabel (i : Nat) (m : Measured) (hi : ms[i]? = some m) (hm : m.label.isSome) :
          offset ms i ≤ 255 := Nat.le_of_lt_succ (hfit.label_lt i m hi hm)
      exact ⟨ms, hread, ⟨hfit.total_le, hlabel⟩, hfit.labels_nodup, hclosed⟩
    · rintro ⟨ms, hread, ⟨htotal, hlabel⟩, hnodup, hclosed⟩
      have hfit : Fit config ms :=
        ⟨htotal, fun i m hi hm => Nat.lt_succ_of_le (hlabel i m hi hm), hnodup⟩
      exact ⟨_, ms, hread, hfit, hclosed, rfl⟩
  · obtain ⟨ns, hns, hfit, hclosed, rfl⟩ := assembleLines_eq_ok_iff.mp hp
    obtain rfl := hns.unique hread
    have hlines := Program.lines_ofMeasured config ns
    refine ⟨hlines, Program.find?_eq_some_iff_of_fit hfit, ?_⟩
    obtain ⟨bytes, hbytes⟩ := (Program.exists_machineCode_iff_closed config ns).mpr hclosed
    obtain ⟨codes, hcodes, hflatten⟩ :=
      (Program.machineCode_ofMeasured_eq_ok_iff config ns bytes).mp hbytes
    exact ⟨codes, hcodes, by rw [hbytes, hflatten]⟩

/-- A label that is declared behind its use. -/
theorem assemble_order_free_forward : ∃ p, assemble "JMP #end\nend: HLT" {} = .ok p ∧
    p.labels.find? "end" = some 2 := by
  have h := assemble_order_free "JMP #end\nend: HLT" {}
  let ms : List Measured := [⟨⟨⟨none, "JMP", some "#end", none, none⟩,
      [⟨.immediate (.label "end"), false⟩]⟩, 2, by rfl, by rfl⟩,
    ⟨⟨⟨some "end", "HLT", none, none, none⟩, []⟩, 1, by rfl, by rfl⟩]
  have hread : Read (Text.lines "JMP #end\nend: HLT") ms := .cons (by rfl) (.cons (by rfl) .nil)
  have hlabel (i : Nat) (m : Measured) (_ : ms[i]? = some m) (_ : m.label.isSome) :
      offset ms i ≤ 255 := Nat.le_trans (offset_le_total ms i) (by decide)
  have hlast : LastDeclares ms "end" 1 := by
    refine ⟨rfl, fun j hj => ?_⟩
    rw [List.getElem?_eq_none (show 2 ≤ j from hj)]
    decide
  obtain ⟨p, hp⟩ := h.1.mpr ⟨ms, hread, ⟨by decide, hlabel⟩, Or.inr (by decide), by decide⟩
  exact ⟨p, hp, ((h.2 p ms hp hread).2.1 "end" 2).mpr ⟨1, hlast, rfl⟩⟩

end Breadboard
