import Breadboard.Proofs.Agreement

/-! Labels that are declared again. Whether this is allowed is asked by one check only, which a text
that declares no label twice never meets. So such a text assembles to the same program either way, and
to forbid redefinition is to refuse just the other texts. Which line declares a label first, and whether
it is used in between, makes no difference. -/

set_option autoImplicit false

namespace Breadboard

open Measured

def Line.declared? (text : String) : Option String := (Line.parse text).toOption.bind Line.label

/-- The labels that the lines of a text declare, each as often as it is declared. -/
def declaredLabels (source : String) : List String :=
  (Text.lines source).filterMap Line.declared?

theorem Line.declared?_of_parse {text : String} {s : Statement} (h : Statement.parse text = .ok s) :
    Line.declared? text = s.line.label := by
  obtain ⟨line, hline, hof⟩ := Statement.parse_eq_ok_iff.mp h
  obtain rfl := Statement.line_of_ofLine hof
  unfold Line.declared?
  rw [hline]
  rfl

namespace Measured

theorem filterMap_label_of_read {texts : List String} {ms : List Measured} (h : Read texts ms) :
    ms.filterMap label = texts.filterMap Line.declared? := by
  unfold Read at h
  induction h with
  | nil => rfl
  | @cons text m texts ms hm _ ih =>
    have hlabel : Line.declared? text = m.label := Line.declared?_of_parse hm
    rw [List.filterMap_cons, List.filterMap_cons, hlabel, ih]

/-- Statements fit together without redefinition exactly if they fit together with it and none of them
makes use of it. -/
theorem fit_forbidden_iff {failFast : Bool} {ms : List Measured} : Fit ⟨false, failFast⟩ ms ↔
    Fit ⟨true, failFast⟩ ms ∧ (ms.filterMap label).Nodup := by
  constructor
  · intro h
    exact ⟨⟨h.total_le, h.label_lt, Or.inl rfl⟩, h.labels_nodup.resolve_left Bool.false_ne_true⟩
  · rintro ⟨h, hnodup⟩
    exact ⟨h.total_le, h.label_lt, Or.inr hnodup⟩

end Measured

theorem Program.withConfig_ofMeasured (config config' : Config) (ms : List Measured) :
    (ofMeasured config ms).withConfig config' = ofMeasured config' ms := by
  induction ms using List.reverseRecOn with
  | nil => rfl
  | append_singleton ms m ih =>
    rw [ofMeasured_concat, ofMeasured_concat, ← ih]
    rfl

/-- Without redefinition, the texts that assemble are those that assemble with it and declare no label
twice, and each gives the same program. -/
theorem assembleLines_forbidden_eq_ok_iff {texts : List String} {failFast : Bool} {p : Program} :
    assembleLines texts ⟨false, failFast⟩ = .ok p ↔
      (texts.filterMap Line.declared?).Nodup ∧
        ∃ q, assembleLines texts ⟨true, failFast⟩ = .ok q ∧ p = q.withConfig ⟨false, failFast⟩ := by
  simp only [assembleLines_eq_ok_iff]
  constructor
  · rintro ⟨ms, hread, hfit, hclosed, rfl⟩
    obtain ⟨hfit, hnodup⟩ := fit_forbidden_iff.mp hfit
    rw [← filterMap_label_of_read hread]
    exact ⟨hnodup, _, ⟨ms, hread, hfit, hclosed, rfl⟩, (Program.withConfig_ofMeasured _ _ ms).symm⟩
  · rintro ⟨hnodup, _, ⟨ms, hread, hfit, hclosed, rfl⟩, rfl⟩
    rw [← filterMap_label_of_read hread] at hnodup
    exact ⟨ms, hread, fit_forbidden_iff.mpr ⟨hfit, hnodup⟩, hclosed,
      Program.withConfig_ofMeasured _ _ ms⟩

/-- To allow redefinition is conservative: a text assembles without it exactly if it assembles with it
and no two of its lines declare the same label, and then to the same lines, labels and machine code. -/
theorem assemble_allowRedefinition (source : String) (failFast : Bool) :
    ((∃ p, assemble source ⟨false, failFast⟩ = .ok p) ↔
      (∃ q, assemble source ⟨true, failFast⟩ = .ok q) ∧ (declaredLabels source).Nodup) ∧
    ∀ p q, assemble source ⟨false, failFast⟩ = .ok p → assemble source ⟨true, failFast⟩ = .ok q →
      q.lines = p.lines ∧ q.labels = p.labels ∧
        ∃ code, p.machineCode = .ok code ∧ q.machineCode = .ok code := by
  unfold assemble declaredLabels
  refine ⟨?_, fun p q hp hq => ?_⟩
  · constructor
    · rintro ⟨p, hp⟩
      obtain ⟨hnodup, q, hq, _⟩ := assembleLines_forbidden_eq_ok_iff.mp hp
      exact ⟨⟨q, hq⟩, hnodup⟩
    · rintro ⟨⟨q, hq⟩, hnodup⟩
      exact ⟨_, assembleLines_forbidden_eq_ok_iff.mpr ⟨hnodup, q, hq, rfl⟩⟩
  · obtain ⟨code, hcode⟩ := exists_machineCode_of_assembleLines hp
    obtain ⟨_, q', hq', rfl⟩ := assembleLines_forbidden_eq_ok_iff.mp hp
    obtain rfl := Except.ok.inj (hq'.symm.trans hq)
    exact ⟨rfl, rfl, code, hcode, hcode⟩

/-- A use of a label that is declared behind it, at the end; and the same with a line in front that
declares the label as well, which is refused unless redefinition is allowed. -/
theorem assemble_allowRedefinition_forward :
    (∃ p q, assemble "JMP #end\nend:" ⟨false, true⟩ = .ok p ∧
      assemble "JMP #end\nend:" ⟨true, true⟩ = .ok q ∧ q.lines = p.lines ∧
      q.machineCode = .ok [0xEE, 2]) ∧
    (¬ ∃ p, assemble "end:\nJMP #end\nend:" ⟨false, true⟩ = .ok p) ∧
    ∃ q, assemble "end:\nJMP #end\nend:" ⟨true, true⟩ = .ok q ∧ q.machineCode = .ok [0xEE, 2] := by
  obtain ⟨p, q, hp, hq, hcode⟩ : ∃ p q, assemble "JMP #end\nend:" ⟨false, true⟩ = .ok p ∧
      assemble "JMP #end\nend:" ⟨true, true⟩ = .ok q ∧ q.machineCode = .ok [0xEE, 2] :=
    ⟨_, _, rfl, rfl, rfl⟩
  obtain ⟨q', hq', hcode'⟩ : ∃ q, assemble "end:\nJMP #end\nend:" ⟨true, true⟩ = .ok q ∧
      q.machineCode = .ok [0xEE, 2] := ⟨_, rfl, rfl⟩
  have hdup : ¬ (declaredLabels "end:\nJMP #end\nend:").Nodup := by decide
  have hsame := (assemble_allowRedefinition "JMP #end\nend:" true).2 p q hp hq
  have hrefused := (assemble_allowRedefinition "end:\nJMP #end\nend:" true).1
  exact ⟨⟨p, q, hp, hq, hsame.1, hcode⟩, fun h => hdup (hrefused.mp h).2, q', hq', hcode'⟩

end Breadboard
