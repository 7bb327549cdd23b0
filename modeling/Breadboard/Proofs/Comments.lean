import Breadboard.Proofs.Outline

/-! Comments. A statement is measured, placed and encoded without a look at its comment. So whatever
is done to the comments of a text, it assembles as before, to a program with the same labels,
addresses and machine code. -/

set_option autoImplicit false

namespace Breadboard

def Line.recomment (f : Option String → Option String) (l : Line) : Line :=
  { l with comment := f l.comment }

theorem Line.recomment_const {l : Line} {comment : Option String} (h : l.comment = comment) :
    (l.recomment fun _ => comment) = l := by
  subst h
  rfl

theorem Line.recomment_congr {f g : Option String → Option String} {l : Line}
    (h : f l.comment = g l.comment) : l.recomment f = l.recomment g := by
  unfold recomment
  rw [h]

variable (f : Option String → Option String)

namespace Statement

def recomment (s : Statement) : Statement := { s with line := s.line.recomment f }

theorem ofLine_recomment (l : Line) : ofLine (l.recomment f) = (ofLine l).map (recomment f) := by
  unfold ofLine
  cases h : (l.first.toList ++ l.second.toList).mapM Operand.parse with
  | error e => exact Except.map_eq_error_iff.mpr h
  | ok operands => exact Except.map_eq_ok_iff.mpr ⟨operands, h, rfl⟩

end Statement

namespace Measured

def recomment (m : Measured) : Measured where
  statement := m.statement.recomment f
  length := m.length
  ofLine_eq := by
    have h := Statement.ofLine_recomment f m.statement.line
    rw [m.ofLine_eq] at h
    exact h
  length_eq := m.length_eq

variable {f}

theorem Fit.recomment {config : Config} {ms : List Measured} (h : Fit config ms) :
    Fit config (ms.map (recomment f)) :=
  h.map (g := Measured.recomment f) (fun _ => rfl) fun _ => rfl

theorem Closed.recomment {ms : List Measured} (h : Closed ms) : Closed (ms.map (recomment f)) := by
  unfold Closed
  rw [List.forall_mem_map]
  intro m hm hop name hname
  obtain ⟨n, hn, hlabel⟩ := h m hm hop name hname
  exact ⟨n.recomment f, List.mem_map_of_mem hn, hlabel⟩

end Measured

open Measured

namespace Program

def recomment (p : Program) : Program :=
  { p with lines := p.lines.map fun l => { l with statement := l.statement.recomment f } }

theorem recomment_extend (p : Program) (m : Measured) :
    (p.extend m).recomment f = (p.recomment f).extend (m.recomment f) := by
  simp only [recomment, extend, List.map_append]
  rfl

theorem ofMeasured_map_recomment (config : Config) (ms : List Measured) :
    ofMeasured config (ms.map (Measured.recomment f)) = (ofMeasured config ms).recomment f := by
  induction ms using List.reverseRecOn with
  | nil => rfl
  | append_singleton ms m ih =>
    rw [List.map_append, List.map_singleton, ofMeasured_concat, ofMeasured_concat,
      recomment_extend, ih]

@[simp] theorem labels_recomment (p : Program) : (p.recomment f).labels = p.labels := rfl

@[simp] theorem placements_recomment (p : Program) : (p.recomment f).placements = p.placements := by
  simp [placements, recomment, Function.comp_def]

@[simp] theorem machineCode_recomment (p : Program) :
    (p.recomment f).machineCode = p.machineCode := by
  unfold machineCode recomment
  rw [List.mapM_map]
  rfl

end Program

variable {f}

/-- A text whose statements are those of another text but for the comments assembles as this does. -/
theorem assembleLines_recomment {texts texts' : List String} {ms : List Measured} {config : Config}
    {p : Program} (hread : Read texts ms) (hread' : Read texts' (ms.map (recomment f)))
    (h : assembleLines texts config = .ok p) :
    assembleLines texts' config = .ok (p.recomment f) := by
  obtain ⟨ns, hns, hfit, hclosed, rfl⟩ := assembleLines_eq_ok_iff.mp h
  obtain rfl := hns.unique hread
  rw [← Program.ofMeasured_map_recomment]
  exact assembleLines_eq_ok_iff.mpr ⟨_, hread', hfit.recomment, hclosed.recomment, rfl⟩

end Breadboard
