import Breadboard.Assembly.Assemble
import Breadboard.Proofs.Reachable

/-! The report of an assembly. The faults that show while the lines are read depend on the program
alone, and so do those that show when every line is in. An assembly succeeds exactly if there are no
faults of either kind. Otherwise it reports them in this order, and `failFast` cuts the report after
its first entry. -/

set_option autoImplicit false

namespace Breadboard

open Measured

namespace Program

/-- The program after lines of text, of which it leaves out those with a fault. -/
def takeAll (p : Program) (texts : List String) : Program := (texts.map Request.source).foldl after p

def numbers (p : Program) (n : Nat) : List String → List Nat
  | [] => []
  | text :: texts =>
    match p.addSource text with
    | .ok q => n :: q.numbers (n + 1) texts
    | .error _ => p.numbers (n + 1) texts

/-- The faults of the lines that a program leaves out; the first line has number `n`. -/
def faults (p : Program) (n : Nat) : List String → List LineError
  | [] => []
  | text :: texts =>
    match p.addSource text with
    | .ok q => q.faults (n + 1) texts
    | .error e => ⟨n, e⟩ :: p.faults (n + 1) texts

def unresolved (p : Program) (numbers : List Nat) : List LineError :=
  (p.lines.zip numbers).filterMap (Scan.emissionError? p)

/-- Every fault of a text, in the order of the report. -/
def report (config : Config) (texts : List String) : List LineError :=
  (empty config).faults 1 texts ++
    ((empty config).takeAll texts).unresolved ((empty config).numbers 1 texts)

theorem takeAll_cons_of_ok {p q : Program} {text : String} (h : p.addSource text = .ok q)
    (texts : List String) : p.takeAll (text :: texts) = q.takeAll texts := by
  have ha : p.after (.source text) = q := after_of_ok h
  unfold takeAll
  rw [List.map_cons, List.foldl_cons, ha]

theorem takeAll_cons_of_error {p : Program} {text : String} {e : AssemblyError}
    (h : p.addSource text = .error e) (texts : List String) :
    p.takeAll (text :: texts) = p.takeAll texts := by
  have ha : p.after (.source text) = p := after_of_error h
  unfold takeAll
  rw [List.map_cons, List.foldl_cons, ha]

theorem config_addSource {p q : Program} {text : String} (h : p.addSource text = .ok q) :
    q.config = p.config := by
  obtain ⟨m, _, _, rfl⟩ := addSource_eq_ok_iff.mp h
  rfl

theorem config_takeAll (p : Program) (texts : List String) :
    (p.takeAll texts).config = p.config := by
  induction texts generalizing p with
  | nil => rfl
  | cons text texts ih =>
    cases h : p.addSource text with
    | ok q => rw [takeAll_cons_of_ok h, ih, config_addSource h]
    | error e => rw [takeAll_cons_of_error h, ih]

theorem length_lines_takeAll (p : Program) (n : Nat) (texts : List String) :
    (p.takeAll texts).lines.length = p.lines.length + (p.numbers n texts).length := by
  induction texts generalizing p n with
  | nil => rfl
  | cons text texts ih =>
    unfold numbers
    cases h : p.addSource text with
    | ok q =>
      obtain ⟨m, _, _, rfl⟩ := addSource_eq_ok_iff.mp h
      rw [takeAll_cons_of_ok h, ih _ (n + 1)]
      simp only [extend, List.length_append, List.length_cons, List.length_nil]
      omega
    | error e => rw [takeAll_cons_of_error h, ih _ (n + 1)]

theorem length_lines_takeAll_empty (config : Config) (n : Nat) (texts : List String) :
    ((empty config).takeAll texts).lines.length = ((empty config).numbers n texts).length := by
  rw [length_lines_takeAll _ n]
  exact Nat.zero_add _

section Map
variable {f : Program → Program} {P : Program → Prop} {R : String → String → Prop}
  (hP : ∀ p q text, P p → p.addSource text = .ok q → P q)
  (hadd : ∀ p text text', P p → R text text' →
    (f p).addSource text' = (p.addSource text).map f)
include hP hadd

/-- If a change of programs goes with their answers to single lines, it goes with reading a text. -/
theorem reading_map {p : Program} (h : P p) {texts texts' : List String} (hR : texts.Forall₂ R texts')
    (n : Nat) :
    (f p).faults n texts' = p.faults n texts ∧ (f p).numbers n texts' = p.numbers n texts ∧
      (f p).takeAll texts' = f (p.takeAll texts) := by
  induction hR generalizing p n with
  | nil => exact ⟨rfl, rfl, rfl⟩
  | @cons text text' texts texts' htext _ ih =>
    have hadd := hadd p text text' h htext
    unfold faults numbers
    cases hp : p.addSource text with
    | ok q =>
      rw [hp] at hadd
      rw [takeAll_cons_of_ok hp, takeAll_cons_of_ok hadd, hadd]
      obtain ⟨hfaults, hnumbers, htake⟩ := ih (hP p q text h hp) (n + 1)
      exact ⟨hfaults, congrArg (List.cons n) hnumbers, htake⟩
    | error e =>
      rw [hp] at hadd
      rw [takeAll_cons_of_error hp, takeAll_cons_of_error hadd, hadd]
      obtain ⟨hfaults, hnumbers, htake⟩ := ih h (n + 1)
      exact ⟨congrArg (List.cons (⟨n, e⟩ : LineError)) hfaults, hnumbers, htake⟩

end Map

end Program

namespace Scan

theorem read_eq (s : Scan) (n : Nat) (texts : List String) : s.read n texts =
    if s.program.config.failFast = true ∧ s.program.faults n texts ≠ [] then
      .error (s.errors ++ (s.program.faults n texts).take 1)
    else .ok ⟨s.program.takeAll texts, s.numbers ++ s.program.numbers n texts,
      s.errors ++ s.program.faults n texts⟩ := by
  induction texts generalizing s n with
  | nil => simp [read, Program.faults, Program.numbers, Program.takeAll]
  | cons text texts ih =>
    unfold read Program.faults Program.numbers
    cases h : s.program.addSource text with
    | ok q =>
      simp only [ih, accept, Program.config_addSource h, Program.takeAll_cons_of_ok h,
        List.append_assoc, List.singleton_append]
    | error e =>
      rw [Program.takeAll_cons_of_error h]
      by_cases hf : s.program.config.failFast = true
      · simp [hf, reject]
      · simp [hf, reject, ih]

theorem emissionErrors_eq (s : Scan) : s.emissionErrors =
    if s.program.config.failFast = true then (s.program.unresolved s.numbers).take 1
    else s.program.unresolved s.numbers := by
  unfold emissionErrors Program.unresolved
  split
  · rw [List.take_one, List.head?_filterMap]
  · rfl

theorem finish_eq (s : Scan) : s.finish =
    if s.errors ++ s.program.unresolved s.numbers = [] then .ok s.program
    else .error (s.errors ++ if s.program.config.failFast = true
      then (s.program.unresolved s.numbers).take 1 else s.program.unresolved s.numbers) := by
  unfold finish
  rw [emissionErrors_eq]
  have hcut : (s.program.unresolved s.numbers).take 1 = [] ↔
      s.program.unresolved s.numbers = [] := by simp [List.take_eq_nil_iff]
  split <;> simp [List.append_eq_nil_iff, hcut]

end Scan

/-- An assembly succeeds exactly if there is nothing to report. -/
theorem assembleLines_eq (texts : List String) (config : Config) : assembleLines texts config =
    if Program.report config texts = [] then .ok ((Program.empty config).takeAll texts)
    else .error (if config.failFast = true then (Program.report config texts).take 1
      else Program.report config texts) := by
  have hconfig : ((Program.empty config).takeAll texts).config = config :=
    Program.config_takeAll _ texts
  have hread : (Scan.start config).read 1 texts =
      if config.failFast = true ∧ (Program.empty config).faults 1 texts ≠ [] then
        .error (((Program.empty config).faults 1 texts).take 1)
      else .ok ⟨(Program.empty config).takeAll texts, (Program.empty config).numbers 1 texts,
        (Program.empty config).faults 1 texts⟩ := Scan.read_eq (Scan.start config) 1 texts
  unfold assembleLines
  rw [hread]
  by_cases hcut : config.failFast = true ∧ (Program.empty config).faults 1 texts ≠ []
  · -- The reading ends at the first fault, which is the first entry of the report.
    have hf := hcut.1
    have hne := hcut.2
    obtain ⟨e, es, hes⟩ := List.exists_cons_of_ne_nil hne
    have hr : Program.report config texts ≠ [] := by simp [Program.report, hes]
    rw [if_pos hcut, if_neg hr, if_pos hf, Program.report, hes]
    rfl
  · rw [if_neg hcut]
    simp only [Except.bind, Scan.finish_eq, hconfig]
    rw [← Program.report]
    by_cases hr : Program.report config texts = []
    · simp only [hr, if_true]
    · simp only [hr, if_false]
      by_cases hf : config.failFast = true
      · have hnil : (Program.empty config).faults 1 texts = [] := by
          by_contra hne
          exact hcut ⟨hf, hne⟩
        simp only [hf, if_true, Program.report, hnil, List.nil_append]
      · simp only [hf, Program.report]
        rfl

end Breadboard
