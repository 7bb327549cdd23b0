import Breadboard.Proofs.Placement

/-! Programs as the statements that they hold. Taking a line either fails or puts one measured
statement at the end of the program, so a program that was built line by line is the fold of its
statements, and its addresses, its size and its labels can be read off them. -/

set_option autoImplicit false

namespace Breadboard

open Measured

theorem Statement.parse_eq_ok_iff {text : String} {s : Statement} : Statement.parse text = .ok s ↔
    ∃ line, Line.parse text = .ok line ∧ Statement.ofLine line = .ok s :=
  Except.bind_eq_ok_iff

theorem Statement.line_of_ofLine {line : Line} {s : Statement} (h : Statement.ofLine line = .ok s) :
    s.line = line := by
  obtain ⟨operands, _, rfl⟩ := Except.map_eq_ok_iff.mp h
  rfl

namespace Program

def extend (p : Program) (m : Measured) : Program where
  config := p.config
  lines := p.lines ++ [⟨p.size, m.length, m.statement⟩]
  labels := m.label.elim p.labels fun name => p.labels.insert name (UInt8.ofNat p.size)
  size := p.size + m.length

def Accepts (p : Program) (m : Measured) : Prop :=
  p.size + m.length ≤ addressSpace ∧ ∀ name, m.label = some name →
    p.size < addressSpace ∧ (p.config.allowRedefinition = true ∨ p.labels.find? name = none)

theorem bindLabel_eq_ok_iff {p : Program} {length : Nat} {label : Option String}
    {labels : LabelTable} : p.bindLabel length label = .ok labels ↔
      (∀ name, label = some name →
        p.size < addressSpace ∧ (p.config.allowRedefinition = true ∨ p.labels.find? name = none)) ∧
      labels = label.elim p.labels fun name => p.labels.insert name (UInt8.ofNat p.size) := by
  cases label with
  | none => exact ⟨fun h => by cases h; simp, fun ⟨_, h⟩ => by rw [h]; rfl⟩
  | some name =>
    unfold bindLabel
    cases hfind : p.labels.find? name <;> grind

theorem place_eq_ok_iff {p q : Program} {m : Measured} :
    p.place m.statement m.length = .ok q ↔ p.Accepts m ∧ q = p.extend m := by
  unfold place
  split
  · next hroom =>
    constructor
    · intro h
      split at h
      · cases h
      · next labels hlabels =>
        obtain ⟨hbind, rfl⟩ := bindLabel_eq_ok_iff.mp hlabels
        cases h
        exact ⟨⟨hroom, hbind⟩, rfl⟩
    · rintro ⟨⟨_, hbind⟩, rfl⟩
      have hlabels : p.bindLabel m.length m.label = .ok _ := bindLabel_eq_ok_iff.mpr ⟨hbind, rfl⟩
      unfold label at hlabels
      rw [hlabels]
      rfl
  · next hroom =>
    refine ⟨fun h => ?_, fun h => absurd h.1.1 hroom⟩
    cases h

theorem add_eq_ok_iff {p q : Program} {line : Line} : p.add line = .ok q ↔
    ∃ m : Measured, Statement.ofLine line = .ok m.statement ∧ p.Accepts m ∧ q = p.extend m := by
  unfold add
  constructor
  · intro h
    split at h
    · cases h
    · next s hs =>
      split at h
      · cases h
      · next length hlength =>
        obtain rfl := Statement.line_of_ofLine hs
        exact ⟨⟨s, length, hs, hlength⟩, hs, place_eq_ok_iff.mp h⟩
  · rintro ⟨m, hs, h⟩
    simp only [hs, m.length_eq]
    exact place_eq_ok_iff.mpr h

theorem addSource_eq_ok_iff {p q : Program} {text : String} : p.addSource text = .ok q ↔
    ∃ m : Measured, Statement.parse text = .ok m.statement ∧ p.Accepts m ∧ q = p.extend m := by
  unfold addSource
  constructor
  · intro h
    split at h
    · cases h
    · next line hline =>
      obtain ⟨m, hm, h⟩ := add_eq_ok_iff.mp h
      exact ⟨m, Statement.parse_eq_ok_iff.mpr ⟨line, hline, hm⟩, h⟩
  · rintro ⟨m, hs, h⟩
    obtain ⟨line, hline, hm⟩ := Statement.parse_eq_ok_iff.mp hs
    rw [hline]
    exact add_eq_ok_iff.mpr ⟨m, hm, h⟩

def ofMeasured (config : Config) (ms : List Measured) : Program := ms.foldl extend (empty config)

variable (config : Config) (ms : List Measured)

@[simp] theorem ofMeasured_nil : ofMeasured config [] = empty config := rfl

@[simp] theorem ofMeasured_concat (m : Measured) :
    ofMeasured config (ms ++ [m]) = (ofMeasured config ms).extend m := by simp [ofMeasured]

@[simp] theorem config_ofMeasured : (ofMeasured config ms).config = config := by
  induction ms using List.reverseRecOn with
  | nil => rfl
  | append_singleton ms m ih => rw [ofMeasured_concat]; exact ih

@[simp] theorem size_ofMeasured : (ofMeasured config ms).size = total ms := by
  induction ms using List.reverseRecOn with
  | nil => rfl
  | append_singleton ms m ih => rw [ofMeasured_concat, total_concat, ← ih]; rfl

@[simp] theorem lines_ofMeasured : (ofMeasured config ms).lines = placed ms := by
  induction ms using List.reverseRecOn with
  | nil => rfl
  | append_singleton ms m ih =>
    rw [ofMeasured_concat, placed_concat, ← ih, ← size_ofMeasured config ms]
    rfl

theorem find?_ofMeasured_eq_some_iff (name : String) (a : UInt8) :
    (ofMeasured config ms).labels.find? name = some a ↔
      ∃ i, LastDeclares ms name i ∧ a = UInt8.ofNat (offset ms i) := by
  induction ms using List.reverseRecOn with
  | nil => simp [empty, not_lastDeclares_nil]
  | append_singleton ms m ih =>
    -- Offsets do not change when a statement is added, so older bindings keep their addresses.
    have hoffset : (∃ i, LastDeclares ms name i ∧ a = UInt8.ofNat (offset (ms ++ [m]) i)) ↔
        ∃ i, LastDeclares ms name i ∧ a = UInt8.ofNat (offset ms i) := by
      refine exists_congr fun i => and_congr_right fun hi => ?_
      rw [offset_append_left _ (Nat.le_of_lt hi.lt_length)]
    have hfind : (ofMeasured config (ms ++ [m])).labels.find? name =
        if m.label = some name then some (UInt8.ofNat (total ms))
        else (ofMeasured config ms).labels.find? name := by
      rw [ofMeasured_concat, ← size_ofMeasured config ms]
      unfold extend
      cases m.label with
      | none => rfl
      | some other => simp [LabelTable.find?_insert, eq_comm]
    rw [hfind]
    simp only [lastDeclares_concat_iff]
    split
    · next hm =>
      have hat := offset_concat_length ms m
      simp only [hm, true_and, ne_eq, not_true_eq_false, false_and, or_false, exists_eq_left, hat,
        Option.some.injEq, eq_comm]
    · next hm =>
      simp only [hm, false_and, ne_eq, not_false_eq_true, true_and, false_or, ih, hoffset]

theorem find?_ofMeasured_eq_none_iff (name : String) :
    (ofMeasured config ms).labels.find? name = none ↔ ∀ m ∈ ms, m.label ≠ some name := by
  rw [← not_iff_not, ← ne_eq, Option.ne_none_iff_exists']
  simp only [find?_ofMeasured_eq_some_iff]
  rw [exists_comm]
  simp only [exists_and_left, exists_eq, and_true, exists_lastDeclares_iff]
  push Not
  rfl

theorem labels_ofMeasured {ms : List Measured} (h : ∀ m ∈ ms, m.label = none) :
    (ofMeasured config ms).labels = .empty := by
  induction ms using List.reverseRecOn with
  | nil => rfl
  | append_singleton ms m ih =>
    have hm := h m (by simp)
    rw [ofMeasured_concat, extend]
    simp only [hm, Option.elim_none]
    exact ih fun n hn => h n (List.mem_append_left _ hn)

variable {config ms}

theorem accepts_ofMeasured_iff (h : Fit config ms) (m : Measured) :
    (ofMeasured config ms).Accepts m ↔ Fit config (ms ++ [m]) := by
  rw [fit_concat_iff]
  unfold Accepts
  simp only [size_ofMeasured, config_ofMeasured, find?_ofMeasured_eq_none_iff, h, true_and]

theorem encode_eq_ok_iff {p : Program} {placed : Placed} {w : List UInt8} :
    p.encode placed = .ok w ↔ placed.statement.encode p.labels.find? = .ok w := by
  unfold encode
  split
  · next h => simp [h]
  · next h => simp [h]
  · next h => simp [h]

theorem machineCode_eq_ok_iff {p : Program} {bytes : List UInt8} : p.machineCode = .ok bytes ↔
    ∃ codes, p.lines.Forall₂ (fun l w => l.statement.encode p.labels.find? = .ok w) codes ∧
      codes.flatten = bytes := by
  unfold machineCode
  simp only [Except.map_eq_ok_iff, Except.mapM_eq_ok_iff, encode_eq_ok_iff]

variable (config ms)

theorem machineCode_ofMeasured_eq_ok_iff (bytes : List UInt8) :
    (ofMeasured config ms).machineCode = .ok bytes ↔
      ∃ codes, ms.Forall₂ (fun m w =>
        m.statement.encode (ofMeasured config ms).labels.find? = .ok w) codes ∧
        codes.flatten = bytes := by
  rw [machineCode_eq_ok_iff, lines_ofMeasured]
  refine exists_congr fun codes => and_congr_left fun _ => ?_
  rw [← List.forall₂_map_left_iff (f := Placed.statement)
    (R := fun s w => s.encode (ofMeasured config ms).labels.find? = .ok w), map_statement_placed,
    List.forall₂_map_left_iff]

end Program

end Breadboard
