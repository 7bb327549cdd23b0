import Breadboard.Proofs.Assembly
import Breadboard.Proofs.Refusals

/-! What an answer depends on. A program looks at its labels, its size and whether it allows
redefinition, and at nothing else; the lines that it holds do not matter, nor does `failFast`. So
programs that agree in these answer every line alike and go on to agree. One consequence is that
`failFast` only cuts the report of an assembly short. -/

set_option autoImplicit false

namespace Breadboard

open Measured

namespace Program

/-- The second program differs from the first one in nothing that its answers depend on. -/
structure Agrees (p q : Program) : Prop where
  allowRedefinition_eq : q.config.allowRedefinition = p.config.allowRedefinition
  labels_eq : q.labels = p.labels
  size_eq : q.size = p.size

namespace Agrees

theorem refl (p : Program) : p.Agrees p := ⟨rfl, rfl, rfl⟩

variable {p q : Program} (h : p.Agrees q)
include h

theorem symm : q.Agrees p := ⟨h.1.symm, h.2.symm, h.3.symm⟩

theorem trans {s : Program} (h' : q.Agrees s) : p.Agrees s :=
  ⟨h'.1.trans h.1, h'.2.trans h.2, h'.3.trans h.3⟩

theorem accepts_iff (m : Measured) : q.Accepts m ↔ p.Accepts m := by
  unfold Accepts
  rw [h.allowRedefinition_eq, h.labels_eq, h.size_eq]

theorem extend (m : Measured) : (p.extend m).Agrees (q.extend m) where
  allowRedefinition_eq := h.allowRedefinition_eq
  labels_eq := by
    unfold Program.extend
    rw [h.labels_eq, h.size_eq]
  size_eq := congrArg (· + m.length) h.size_eq

theorem refuses {read : Except ParseError Statement} {e : AssemblyError} (hp : p.Refuses read e) :
    q.Refuses read e := by
  cases hp with
  | parse hread => exact .parse hread
  | encode hread hlength => exact .encode hread hlength
  | overflow hread hlength hroom =>
    rw [← h.size_eq] at hroom ⊢
    exact .overflow hread hlength hroom
  | redefined hread hlength hroom hlabel hsize hfind hallow =>
    rw [← h.size_eq] at hroom hsize
    rw [← h.labels_eq] at hfind
    rw [← h.allowRedefinition_eq] at hallow
    exact .redefined hread hlength hroom hlabel hsize hfind hallow

/-- Both take a line, and put the same statement behind their lines, or both refuse it with the same
fault. -/
theorem addSource_cases (text : String) :
    (∃ m, p.Accepts m ∧ p.addSource text = .ok (p.extend m) ∧ q.addSource text = .ok (q.extend m)) ∨
      ∃ e, p.addSource text = .error e ∧ q.addSource text = .error e := by
  cases hp : p.addSource text with
  | ok p' =>
    obtain ⟨m, hm, haccepts, rfl⟩ := addSource_eq_ok_iff.mp hp
    have hq := addSource_eq_ok_iff.mpr ⟨m, hm, (h.accepts_iff m).mpr haccepts, rfl⟩
    exact .inl ⟨m, haccepts, rfl, hq⟩
  | error e =>
    have hq := addSource_eq_error_iff.mpr (h.refuses (addSource_eq_error_iff.mp hp))
    exact .inr ⟨e, rfl, hq⟩

end Agrees

def withConfig (config : Config) (p : Program) : Program := { p with config := config }

section Config
variable {config : Config} {p : Program} (h : config.allowRedefinition = p.config.allowRedefinition)
include h

theorem addSource_withConfig (text : String) :
    (p.withConfig config).addSource text = (p.addSource text).map (withConfig config) := by
  have hagrees : p.Agrees (p.withConfig config) := ⟨h, rfl, rfl⟩
  rcases hagrees.addSource_cases text with ⟨m, _, hp, hq⟩ | ⟨e, hp, hq⟩
  · rw [hp, hq]
    rfl
  · rw [hp, hq]
    rfl

theorem reading_withConfig (n : Nat) (texts : List String) :
    (p.withConfig config).faults n texts = p.faults n texts ∧
      (p.withConfig config).numbers n texts = p.numbers n texts ∧
      (p.withConfig config).takeAll texts = (p.takeAll texts).withConfig config := by
  have hsame : texts.Forall₂ (· = ·) texts := List.forall₂_same.mpr fun _ _ => rfl
  refine reading_map (P := fun q => config.allowRedefinition = q.config.allowRedefinition) ?_ ?_ h
    hsame n
  · intro p q text hp hadd
    rw [config_addSource hadd, hp]
  · rintro p text _ hp rfl
    exact addSource_withConfig hp text

end Config

theorem report_congr {config config' : Config}
    (h : config'.allowRedefinition = config.allowRedefinition) (texts : List String) :
    report config' texts = report config texts := by
  obtain ⟨hfaults, hnumbers, htake⟩ := reading_withConfig (p := empty config) h 1 texts
  unfold report
  rw [show empty config' = (empty config).withConfig config' from rfl, hfaults, hnumbers, htake]
  rfl

end Program

theorem assembleLines_failFast (texts : List String) (allow : Bool) :
    assembleLines texts ⟨allow, true⟩ =
      match assembleLines texts ⟨allow, false⟩ with
      | .ok p => .ok (p.withConfig ⟨allow, true⟩)
      | .error es => .error (es.take 1) := by
  have hreport : Program.report ⟨allow, true⟩ texts = Program.report ⟨allow, false⟩ texts :=
    Program.report_congr (by rfl) texts
  have hreading : ((Program.empty ⟨allow, false⟩).withConfig ⟨allow, true⟩).faults 1 texts = _ ∧ _ ∧
      (Program.empty ⟨allow, true⟩).takeAll texts = _ :=
    Program.reading_withConfig (by rfl) 1 texts
  rw [assembleLines_eq, assembleLines_eq, hreport, hreading.2.2]
  split <;> rfl

theorem ne_nil_of_assembleLines {texts : List String} {config : Config} {es : List LineError}
    (h : assembleLines texts config = .error es) : es ≠ [] := by
  rw [assembleLines_eq] at h
  split at h
  · cases h
  · next hne =>
    obtain rfl := Except.error.inj h
    split
    · simpa [List.take_eq_nil_iff] using hne
    · exact hne

theorem exists_machineCode_of_assembleLines {texts : List String} {config : Config} {p : Program}
    (h : assembleLines texts config = .ok p) : ∃ code, p.machineCode = .ok code := by
  obtain ⟨ms, _, _, hclosed, rfl⟩ := assembleLines_eq_ok_iff.mp h
  exact (Program.exists_machineCode_iff_closed config ms).mpr hclosed

/-- With `failFast` the same texts assemble, to the same lines, labels and machine code. The report of
any other text is cut after its first entry. -/
theorem assemble_failFast (source : String) (allow : Bool) :
    ((∃ q, assemble source ⟨allow, true⟩ = .ok q) ↔ ∃ p, assemble source ⟨allow, false⟩ = .ok p) ∧
    (∀ p q, assemble source ⟨allow, false⟩ = .ok p → assemble source ⟨allow, true⟩ = .ok q →
      q.lines = p.lines ∧ q.labels = p.labels ∧
        ∃ code, p.machineCode = .ok code ∧ q.machineCode = .ok code) ∧
    ∀ es fs, assemble source ⟨allow, false⟩ = .error es → assemble source ⟨allow, true⟩ = .error fs →
      ∃ e rest, es = e :: rest ∧ fs = [e] := by
  have hfast := assembleLines_failFast (Text.lines source) allow
  unfold assemble
  cases hslow : assembleLines (Text.lines source) ⟨allow, false⟩ with
  | ok p =>
    obtain ⟨code, hcode⟩ := exists_machineCode_of_assembleLines hslow
    rw [hslow] at hfast
    rw [hfast]
    refine ⟨⟨fun _ => ⟨p, rfl⟩, fun _ => ⟨_, rfl⟩⟩, ?_, ?_⟩
    · rintro _ _ ⟨⟩ ⟨⟩
      exact ⟨rfl, rfl, code, hcode, hcode⟩
    · rintro _ _ ⟨⟩
  | error es =>
    obtain ⟨e, rest, rfl⟩ := List.exists_cons_of_ne_nil (ne_nil_of_assembleLines hslow)
    rw [hslow] at hfast
    rw [hfast]
    refine ⟨⟨?_, ?_⟩, ?_, ?_⟩
    · rintro ⟨_, ⟨⟩⟩
    · rintro ⟨_, ⟨⟩⟩
    · rintro _ _ ⟨⟩
    · rintro _ _ ⟨⟩ ⟨⟩
      exact ⟨e, rest, rfl, rfl⟩

/-- A loop; two labels that are never bound, which shows only when all lines are in; and the same with a
line in between that is refused. -/
theorem assemble_failFast_unbound :
    (∃ p q, assemble "x: JMP #x" ⟨false, false⟩ = .ok p ∧ assemble "x: JMP #x" ⟨false, true⟩ = .ok q ∧
      q.lines = p.lines ∧ p.machineCode = .ok [0xEE, 0] ∧ q.machineCode = .ok [0xEE, 0]) ∧
    (∃ e rest, assemble "JMP #x\n\nCALL #y" ⟨false, false⟩ = .error (e :: rest) ∧
      assemble "JMP #x\n\nCALL #y" ⟨false, true⟩ = .error [e] ∧ e.line = 1 ∧ rest.length = 1) ∧
    ∃ e rest, assemble "JMP #x\nFOO\nCALL #y" ⟨false, false⟩ = .error (e :: rest) ∧
      assemble "JMP #x\nFOO\nCALL #y" ⟨false, true⟩ = .error [e] ∧ e.line = 2 ∧ rest.length = 2 := by
  obtain ⟨p, q, hp, hq, hcode⟩ : ∃ p q, assemble "x: JMP #x" ⟨false, false⟩ = .ok p ∧
      assemble "x: JMP #x" ⟨false, true⟩ = .ok q ∧ p.machineCode = .ok [0xEE, 0] :=
    ⟨_, _, rfl, rfl, rfl⟩
  obtain ⟨es, fs, hes, hfs, hlines⟩ : ∃ es fs, assemble "JMP #x\n\nCALL #y" ⟨false, false⟩ = .error es ∧
      assemble "JMP #x\n\nCALL #y" ⟨false, true⟩ = .error fs ∧ es.map LineError.line = [1, 3] :=
    ⟨_, _, rfl, rfl, rfl⟩
  obtain ⟨es', fs', hes', hfs', hlines'⟩ : ∃ es fs,
      assemble "JMP #x\nFOO\nCALL #y" ⟨false, false⟩ = .error es ∧
      assemble "JMP #x\nFOO\nCALL #y" ⟨false, true⟩ = .error fs ∧ es.map LineError.line = [2, 1, 3] :=
    ⟨_, _, rfl, rfl, rfl⟩
  obtain ⟨hsame, _, code, hpcode, hqcode⟩ := (assemble_failFast _ false).2.1 p q hp hq
  obtain rfl := Except.ok.inj (hcode.symm.trans hpcode)
  obtain ⟨e, rest, rfl, rfl⟩ := (assemble_failFast _ false).2.2 es fs hes hfs
  obtain ⟨e', rest', rfl, rfl⟩ := (assemble_failFast _ false).2.2 es' fs' hes' hfs'
  have hfirst := List.cons.inj hlines
  have hsecond := List.cons.inj hlines'
  exact ⟨⟨p, q, hp, hq, hsame, hpcode, hqcode⟩,
    ⟨e, rest, hes, hfs, hfirst.1, by simpa using congrArg List.length hfirst.2⟩,
    e', rest', hes', hfs', hsecond.1, by simpa using congrArg List.length hsecond.2⟩

end Breadboard
