import Breadboard.Proofs.Extension

/-! Programs that can be reached. A program is asked for one line after the other and refuses some of
them; a refusal leaves it as it was. Whatever was asked for, the program holds statements that fit,
and this gives the invariant: the lines tile the memory from address zero on, and the label table
binds each declared name where the last line that declares it lies. -/

set_option autoImplicit false

namespace Breadboard

open Measured

namespace LabelTable

def keys (t : LabelTable) : List String := t.entries.map Prod.fst

theorem mem_keys_iff {t : LabelTable} {name : String} :
    name ∈ t.keys ↔ (t.find? name).isSome := by
  simp [keys, find?, List.find?_isSome]

theorem keys_insert (t : LabelTable) (name : String) (address : UInt8) :
    (t.insert name address).keys = t.keys.filter (· ≠ name) ++ [name] := by
  simp [keys, insert, List.filter_map, Function.comp_def]

theorem nodup_keys_insert {t : LabelTable} (h : t.keys.Nodup) (name : String) (address : UInt8) :
    (t.insert name address).keys.Nodup := by
  rw [keys_insert, ← List.concat_eq_append, List.nodup_concat]
  exact ⟨by simp, h.filter _⟩

end LabelTable

inductive Request
  | line (l : Line)
  | source (text : String)
  deriving Repr, DecidableEq

/-- The line that a request is about, unless its text cannot be cut. -/
def Request.line? : Request → Option Line
  | line l => some l
  | source text => (Line.parse text).toOption

namespace Program

def answer (p : Program) : Request → Except AssemblyError Program
  | .line l => p.add l
  | .source text => p.addSource text

/-- The program after a request. One that is refused leaves it as it was. -/
def after (p : Program) (r : Request) : Program :=
  match p.answer r with
  | .ok q => q
  | .error _ => p

/-- The program after requests that are made one after the other, from the empty program on. -/
def run (config : Config) (rs : List Request) : Program := rs.foldl after (empty config)

/-- The lines that a program takes out of requests that are made one after the other. -/
def taken (p : Program) : List Request → List Line
  | [] => []
  | r :: rs =>
    match p.answer r with
    | .ok q => r.line?.toList ++ q.taken rs
    | .error _ => p.taken rs

theorem answer_eq_ok {p q : Program} {r : Request} (h : p.answer r = .ok q) :
    ∃ m : Measured, r.line? = some m.statement.line ∧ p.Accepts m ∧ q = p.extend m := by
  cases r with
  | line l =>
    obtain ⟨m, hm, hq⟩ := add_eq_ok_iff.mp h
    exact ⟨m, congrArg some (Statement.line_of_ofLine hm).symm, hq⟩
  | source text =>
    obtain ⟨m, hm, hq⟩ := addSource_eq_ok_iff.mp h
    obtain ⟨line, hline, hm⟩ := Statement.parse_eq_ok_iff.mp hm
    refine ⟨m, ?_, hq⟩
    rw [Statement.line_of_ofLine hm, Request.line?, hline]
    rfl

theorem after_of_ok {p q : Program} {r : Request} (h : p.answer r = .ok q) : p.after r = q := by
  unfold after
  rw [h]

theorem after_of_error {p : Program} {r : Request} {e : AssemblyError}
    (h : p.answer r = .error e) : p.after r = p := by
  unfold after
  rw [h]

theorem foldl_after_ofMeasured (config : Config) (rs : List Request) {ms : List Measured}
    (h : Fit config ms) : ∃ ns, Fit config (ms ++ ns) ∧
      rs.foldl after (ofMeasured config ms) = ofMeasured config (ms ++ ns) ∧
      (ofMeasured config ms).taken rs = ns.map fun m => m.statement.line := by
  induction rs generalizing ms with
  | nil => exact ⟨[], by simpa using h, by simp, rfl⟩
  | cons r rs ih =>
    rw [List.foldl_cons]
    unfold taken
    cases hr : (ofMeasured config ms).answer r with
    | error e =>
      rw [after_of_error hr]
      exact ih h
    | ok q =>
      rw [after_of_ok hr]
      obtain ⟨m, hline, hm, rfl⟩ := answer_eq_ok hr
      have hfit := (accepts_ofMeasured_iff h m).mp hm
      obtain ⟨ns, hns, hrun, htaken⟩ := ih hfit
      rw [ofMeasured_concat] at hrun htaken
      refine ⟨m :: ns, by simpa using hns, by simpa using hrun, ?_⟩
      rw [List.map_cons, ← htaken, hline]
      rfl

/-- A reachable program holds statements that fit. -/
theorem exists_run_eq_ofMeasured (config : Config) (rs : List Request) :
    ∃ ms, Fit config ms ∧ run config rs = ofMeasured config ms ∧
      (empty config).taken rs = ms.map fun m => m.statement.line :=
  foldl_after_ofMeasured config rs (fit_nil config)

/-- What holds of a program that has taken `lines`, whatever it has refused. -/
structure Invariant (config : Config) (lines : List Line) (p : Program) : Prop where
  config_eq : p.config = config
  lines_eq : p.lines.map (fun l => l.statement.line) = lines
  first_address : ∀ l, p.lines[0]? = some l → l.address = 0
  next_address : ∀ i l m, p.lines[i]? = some l → p.lines[i + 1]? = some m →
    m.address = l.address + l.length
  size_eq : p.size = (p.lines.map Placed.length).sum
  size_le : p.size ≤ 256
  tiled : ∀ a, a < p.size →
    ∃! i : Nat, ∃ l : Placed, p.lines[i]? = some l ∧ l.address ≤ a ∧ a < l.address + l.length
  end_le_size : ∀ l ∈ p.lines, l.address + l.length ≤ p.size
  /-- Sixteen bits hold the sum that is compared with the address space at the next request. -/
  next_end_lt : ∀ s n, Statement.length s = .ok n → p.size + n < 2 ^ 16
  length_le : ∀ l ∈ p.lines, l.length ≤ 2
  length_eq_zero : ∀ l ∈ p.lines, l.length = 0 ↔ l.statement.line.opcode = ""
  nodup_keys : p.labels.keys.Nodup
  mem_keys : ∀ name, name ∈ p.labels.keys ↔ ∃ line ∈ lines, line.label = some name
  find?_eq : ∀ name a, p.labels.find? name = some a ↔ ∃ i : Nat, ∃ l : Placed,
    p.lines[i]? = some l ∧ l.statement.line.label = some name ∧ l.address = a.toNat ∧
      ∀ (j : Nat) (m : Placed), i < j → p.lines[j]? = some m → m.statement.line.label ≠ some name
  label_address_le : ∀ l ∈ p.lines, l.statement.line.label.isSome → l.address ≤ 255
  labels_once : config.allowRedefinition = false → (lines.filterMap Line.label).Nodup

section Fit
variable {config : Config} {ms : List Measured}

theorem address_of_getElem?_placed {i : Nat} {l : Placed} (h : (placed ms)[i]? = some l) :
    l.address = offset ms i := by
  rw [getElem?_placed] at h
  obtain ⟨_, _, rfl⟩ := Option.map_eq_some_iff.mp h
  rfl

theorem offset_succ_of_getElem?_placed {i : Nat} {l : Placed} (h : (placed ms)[i]? = some l) :
    offset ms (i + 1) = l.address + l.length := by
  rw [getElem?_placed] at h
  obtain ⟨m, hm, rfl⟩ := Option.map_eq_some_iff.mp h
  exact offset_succ hm

theorem end_le_total {l : Placed} (h : l ∈ placed ms) : l.address + l.length ≤ total ms := by
  obtain ⟨i, hi⟩ := List.getElem?_of_mem h
  rw [← offset_succ_of_getElem?_placed hi]
  exact offset_le_total ms (i + 1)

theorem length_eq_zero_iff_of_mem_placed {l : Placed} (h : l ∈ placed ms) :
    l.length = 0 ↔ l.statement.line.opcode = "" := by
  obtain ⟨_, m, _, rfl⟩ := mem_placed_iff.mp h
  exact m.length_eq_zero_iff.trans String.isEmpty_iff

theorem tiled_placed {a : Nat} (h : a < total ms) : ∃! i : Nat, ∃ l : Placed,
    (placed ms)[i]? = some l ∧ l.address ≤ a ∧ a < l.address + l.length := by
  refine (existsUnique_congr fun i => ?_).mp (existsUnique_offset h)
  rw [getElem?_placed]
  constructor
  · rintro ⟨hi, hle, hgt⟩
    rw [offset_succ (List.getElem?_eq_getElem hi)] at hgt
    rw [List.getElem?_eq_getElem hi]
    exact ⟨_, rfl, hle, hgt⟩
  · rintro ⟨l, hl, hle, hgt⟩
    obtain ⟨m, hm, rfl⟩ := Option.map_eq_some_iff.mp hl
    rw [offset_succ hm]
    exact ⟨(List.getElem?_eq_some_iff.mp hm).1, hle, hgt⟩

theorem nodup_keys_ofMeasured : (ofMeasured config ms).labels.keys.Nodup := by
  induction ms using List.reverseRecOn with
  | nil => exact List.nodup_nil
  | append_singleton ms m ih =>
    rw [ofMeasured_concat]
    unfold extend
    cases m.label with
    | none => exact ih
    | some name => exact LabelTable.nodup_keys_insert ih _ _

theorem isSome_find?_ofMeasured_iff (name : String) :
    ((ofMeasured config ms).labels.find? name).isSome ↔ ∃ m ∈ ms, m.label = some name := by
  rw [← not_iff_not, Option.not_isSome_iff_eq_none, find?_ofMeasured_eq_none_iff]
  simp

theorem mem_keys_ofMeasured_iff (name : String) :
    name ∈ (ofMeasured config ms).labels.keys ↔ ∃ m ∈ ms, m.label = some name := by
  rw [LabelTable.mem_keys_iff, isSome_find?_ofMeasured_iff]

theorem find?_eq_some_iff_of_fit (h : Fit config ms) (name : String) (a : UInt8) :
    (ofMeasured config ms).labels.find? name = some a ↔
      ∃ i, LastDeclares ms name i ∧ a.toNat = offset ms i := by
  rw [find?_ofMeasured_eq_some_iff]
  refine exists_congr fun i => and_congr_right fun hi => ?_
  obtain ⟨m, hm, hlabel⟩ := Option.bind_eq_some_iff.mp hi.1
  have hlt := h.label_lt i m hm (by simp [hlabel])
  unfold addressSpace at hlt
  rw [← UInt8.toNat_inj, UInt8.toNat_ofNat_of_lt' (by simpa using hlt)]

theorem bind_label_eq_some_iff (name : String) (i : Nat) : ms[i]?.bind label = some name ↔
    ∃ l : Placed, (placed ms)[i]? = some l ∧ l.statement.line.label = some name := by
  rw [getElem?_placed]
  cases ms[i]? with
  | none => simp
  | some m => simp [label]

theorem lastDeclares_iff_placed (name : String) (i : Nat) : LastDeclares ms name i ↔
    (∃ l : Placed, (placed ms)[i]? = some l ∧ l.statement.line.label = some name) ∧
      ∀ (j : Nat) (m : Placed), i < j → (placed ms)[j]? = some m →
        m.statement.line.label ≠ some name := by
  unfold LastDeclares
  simp only [ne_eq, bind_label_eq_some_iff, not_exists, not_and]
  exact and_congr_right fun _ => ⟨fun h j m hj => h j hj m, fun h j hj m => h j m hj⟩

theorem find?_eq_some_iff_placed (h : Fit config ms) (name : String) (a : UInt8) :
    (ofMeasured config ms).labels.find? name = some a ↔ ∃ i : Nat, ∃ l : Placed,
      (placed ms)[i]? = some l ∧ l.statement.line.label = some name ∧ l.address = a.toNat ∧
        ∀ (j : Nat) (m : Placed), i < j → (placed ms)[j]? = some m →
          m.statement.line.label ≠ some name := by
  rw [find?_eq_some_iff_of_fit h]
  refine exists_congr fun i => ?_
  rw [lastDeclares_iff_placed]
  constructor
  · rintro ⟨⟨⟨l, hl, hname⟩, hlast⟩, ha⟩
    exact ⟨l, hl, hname, by rw [ha, address_of_getElem?_placed hl], hlast⟩
  · rintro ⟨l, hl, hname, ha, hlast⟩
    exact ⟨⟨⟨l, hl, hname⟩, hlast⟩, by rw [← ha, address_of_getElem?_placed hl]⟩

theorem label_address_le (h : Fit config ms) {l : Placed} (hl : l ∈ placed ms)
    (hlabel : l.statement.line.label.isSome) : l.address ≤ 255 := by
  obtain ⟨i, m, hm, rfl⟩ := mem_placed_iff.mp hl
  exact Nat.le_of_lt_succ (h.label_lt i m hm hlabel)

theorem next_end_lt (h : Fit config ms) {s : Statement} {n : Nat} (hn : s.length = .ok n) :
    total ms + n < 2 ^ 16 := by
  have hle := h.total_le
  have hn := Statement.length_le_two hn
  unfold addressSpace at hle
  omega

end Fit

theorem invariant_ofMeasured {config : Config} {ms : List Measured} (h : Fit config ms) :
    Invariant config (ms.map fun m => m.statement.line) (ofMeasured config ms) where
  config_eq := config_ofMeasured config ms
  lines_eq := by
    rw [lines_ofMeasured]
    exact map_placed ms fun _ _ => rfl
  first_address l hl := by
    rw [lines_ofMeasured] at hl
    exact address_of_getElem?_placed hl
  next_address i l m hl hm := by
    rw [lines_ofMeasured] at hl hm
    rw [address_of_getElem?_placed hm, offset_succ_of_getElem?_placed hl]
  size_eq := by
    rw [size_ofMeasured, lines_ofMeasured]
    exact congrArg List.sum (map_placed ms fun _ _ => rfl).symm
  size_le := by
    rw [size_ofMeasured]
    exact h.total_le
  tiled a ha := by
    rw [size_ofMeasured] at ha
    rw [lines_ofMeasured]
    exact tiled_placed ha
  end_le_size l hl := by
    rw [lines_ofMeasured] at hl
    rw [size_ofMeasured]
    exact end_le_total hl
  next_end_lt s n hn := by
    rw [size_ofMeasured]
    exact Program.next_end_lt h hn
  length_le l hl := by
    rw [lines_ofMeasured] at hl
    obtain ⟨_, m, _, rfl⟩ := mem_placed_iff.mp hl
    exact m.length_le_two
  length_eq_zero l hl := by
    rw [lines_ofMeasured] at hl
    exact length_eq_zero_iff_of_mem_placed hl
  nodup_keys := nodup_keys_ofMeasured
  mem_keys name := by
    rw [mem_keys_ofMeasured_iff]
    simp [label]
  find?_eq name a := by
    rw [lines_ofMeasured]
    exact find?_eq_some_iff_placed h name a
  label_address_le l hl hlabel := by
    rw [lines_ofMeasured] at hl
    exact Program.label_address_le h hl hlabel
  labels_once hoff := by
    rw [List.filterMap_map]
    exact h.labels_nodup.resolve_left (by simp [hoff])

/-- The invariant holds after every sequence of requests, whatever was taken and refused. -/
theorem invariant_run (config : Config) (rs : List Request) :
    Invariant config ((empty config).taken rs) (run config rs) := by
  obtain ⟨ms, hfit, hrun, htaken⟩ := exists_run_eq_ofMeasured config rs
  rw [hrun, htaken]
  exact invariant_ofMeasured hfit

end Program

end Breadboard
