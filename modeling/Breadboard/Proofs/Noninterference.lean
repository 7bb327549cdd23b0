import Breadboard.Proofs.Agreement
import Breadboard.Proofs.LineCode

/-! What does not influence an assembly. To change the comments of a program goes with everything that
is asked of it: it takes and refuses the same lines for the same reasons, and what it takes is the same
but for the comments. A line means what its part that counts means, so a text assembles as its bare lines
do, with the same report if it fails. Two texts with the same parts that count have the same bare lines,
whatever is in their comments, at the ends of their lines and between them. -/

set_option autoImplicit false

namespace Breadboard

open Measured

variable (f : Option String → Option String)

def ReadsRecommented (text text' : String) : Prop :=
  Statement.parse text' = (Statement.parse text).map (Statement.recomment f)

variable {f}

namespace Program

theorem Accepts.recomment {p : Program} {m : Measured} (h : p.Accepts m) :
    (p.recomment f).Accepts (m.recomment f) := h

theorem Refuses.recomment {p : Program} {read : Except ParseError Statement} {e : AssemblyError}
    (h : p.Refuses read e) : (p.recomment f).Refuses (read.map (Statement.recomment f)) e := by
  cases h with
  | parse hread => exact .parse (Except.map_eq_error_iff.mpr hread)
  | encode hread hlength =>
    subst hread
    exact .encode (s := _) rfl hlength
  | overflow hread hlength hroom =>
    subst hread
    exact .overflow (p := p.recomment f) rfl hlength hroom
  | redefined hread hlength hroom hlabel hsize hfind hallow =>
    subst hread
    exact .redefined rfl hlength hroom hlabel hsize hfind hallow

/-- One line: whether it is taken and what is wrong with it does not depend on comments. -/
theorem addSource_recomment (p : Program) {text text' : String} (h : ReadsRecommented f text text') :
    (p.recomment f).addSource text' = (p.addSource text).map (recomment f) := by
  unfold ReadsRecommented at h
  cases hp : p.addSource text with
  | ok q =>
    obtain ⟨m, hm, haccepts, rfl⟩ := addSource_eq_ok_iff.mp hp
    rw [hm] at h
    refine addSource_eq_ok_iff.mpr ⟨m.recomment f, h, haccepts.recomment, ?_⟩
    exact recomment_extend f p m
  | error e =>
    have hrefuses := (addSource_eq_error_iff.mp hp).recomment (f := f)
    rw [← h] at hrefuses
    exact addSource_eq_error_iff.mpr hrefuses

theorem unresolved_recomment (p : Program) (numbers : List Nat) :
    (p.recomment f).unresolved numbers = p.unresolved numbers := by
  unfold unresolved
  have hlines : (p.recomment f).lines =
      p.lines.map fun l => { l with statement := l.statement.recomment f } := rfl
  rw [hlines, List.zip_map_left, List.filterMap_map]
  rfl

/-- All lines: the texts are reported alike, and leave the same program but for the comments. -/
theorem report_recomment (config : Config) {texts texts' : List String}
    (h : texts.Forall₂ (ReadsRecommented f) texts') :
    report config texts' = report config texts ∧
      (empty config).takeAll texts' = ((empty config).takeAll texts).recomment f := by
  obtain ⟨hfaults, hnumbers, htake⟩ := reading_map (f := recomment f) (P := fun _ => True)
    (fun _ _ _ _ _ => trivial) (fun p _ _ _ h => addSource_recomment p h) (p := empty config)
    trivial h 1
  have hempty : (empty config).recomment f = empty config := rfl
  rw [hempty] at hfaults hnumbers htake
  unfold report
  rw [hfaults, hnumbers, htake, unresolved_recomment]
  exact ⟨rfl, rfl⟩

end Program

theorem assembleLines_readsRecommented (config : Config) {texts texts' : List String}
    (h : texts.Forall₂ (ReadsRecommented f) texts') :
    assembleLines texts' config = (assembleLines texts config).map (Program.recomment f) := by
  obtain ⟨hreport, htake⟩ := Program.report_recomment config h
  rw [assembleLines_eq, assembleLines_eq, hreport, htake]
  split <;> rfl

/-- A text assembles as its bare lines do. -/
theorem assembleLines_map_bare (texts : List String) (config : Config) :
    assembleLines (texts.map Line.bare) config =
      (assembleLines texts config).map (Program.recomment fun _ => none) := by
  apply assembleLines_readsRecommented
  rw [List.forall₂_map_right_iff, List.forall₂_same]
  intro text _
  exact Statement.parse_bare text

/-- Two texts have the same number of lines, and line for line the same parts that count. -/
def SameCode (source source' : String) : Prop :=
  (Text.lines source).Forall₂ (fun text text' => Line.significant text = Line.significant text')
    (Text.lines source')

theorem SameCode.map_bare {source source' : String} (h : SameCode source source') :
    (Text.lines source).map Line.bare = (Text.lines source').map Line.bare := by
  rw [← List.forall₂_eq_eq_eq, List.forall₂_map_left_iff, List.forall₂_map_right_iff]
  exact h.imp fun _ _ hcode => congrArg String.ofList hcode

/-- Comments, indentation and line ends do not influence an assembly: texts that differ in nothing else
give the same labels, placements and machine code, or the same report. -/
theorem assemble_noninterference (config : Config) {source source' : String}
    (h : SameCode source source') :
    (∃ p q, assemble source config = .ok p ∧ assemble source' config = .ok q ∧ q.labels = p.labels ∧
      q.placements = p.placements ∧
        ∃ code, p.machineCode = .ok code ∧ q.machineCode = .ok code) ∨
    ∃ errors, assemble source config = .error errors ∧ assemble source' config = .error errors := by
  have hbare := assembleLines_map_bare (Text.lines source) config
  have hbare' := assembleLines_map_bare (Text.lines source') config
  rw [← h.map_bare, hbare] at hbare'
  unfold assemble
  cases hp : assembleLines (Text.lines source) config with
  | error errors =>
    rw [hp] at hbare'
    exact .inr ⟨errors, rfl, Except.map_eq_error_iff.mp hbare'.symm⟩
  | ok p =>
    rw [hp] at hbare'
    obtain ⟨q, hq, heq⟩ := Except.map_eq_ok_iff.mp hbare'.symm
    have hlabels := congrArg Program.labels heq
    have hplacements := congrArg Program.placements heq
    have hcode := congrArg Program.machineCode heq
    simp only [Program.labels_recomment, Program.placements_recomment,
      Program.machineCode_recomment] at hlabels hplacements hcode
    obtain ⟨code, hp'⟩ := exists_machineCode_of_assembleLines hp
    exact .inl ⟨p, q, rfl, hq, hlabels, hplacements, code, hp', hcode.trans hp'⟩

/-- A comment with a colon and a semicolon in it, and carriage returns and tabs at the ends of lines; and
the same in front of a line that is refused. -/
theorem assemble_noninterference_return :
    (SameCode "x: HLT ;y: é;\r\n\tJMP #x" "  x: HLT\t\nJMP #x;" ∧
      ∃ p q, assemble "x: HLT ;y: é;\r\n\tJMP #x" {} = .ok p ∧
        assemble "  x: HLT\t\nJMP #x;" {} = .ok q ∧ q.machineCode = .ok [0xF9, 0xEE, 0]) ∧
    SameCode ";\nFOO:A:B ;c" "\r\r\n FOO:A:B\t" ∧
      ∃ errors, assemble ";\nFOO:A:B ;c" {} = .error errors ∧
        assemble "\r\r\n FOO:A:B\t" {} = .error errors ∧ errors.map LineError.line = [2] := by
  have hsame : SameCode "x: HLT ;y: é;\r\n\tJMP #x" "  x: HLT\t\nJMP #x;" :=
    .cons (by decide) (.cons (by decide) .nil)
  have hsame' : SameCode ";\nFOO:A:B ;c" "\r\r\n FOO:A:B\t" :=
    .cons (by decide) (.cons (by decide) .nil)
  obtain ⟨q, hq, hcode⟩ : ∃ q, assemble "  x: HLT\t\nJMP #x;" {} = .ok q ∧
      q.machineCode = .ok [0xF9, 0xEE, 0] := ⟨_, rfl, rfl⟩
  obtain ⟨errors, herrors, hlines⟩ : ∃ errors, assemble ";\nFOO:A:B ;c" {} = .error errors ∧
      errors.map LineError.line = [2] := ⟨_, rfl, rfl⟩
  refine ⟨⟨hsame, ?_⟩, hsame', ?_⟩
  · rcases assemble_noninterference {} hsame with ⟨p, q', hp, hq', _⟩ | ⟨_, _, herror⟩
    · obtain rfl := Except.ok.inj (hq.symm.trans hq')
      exact ⟨p, q, hp, hq, hcode⟩
    · cases hq.symm.trans herror
  · rcases assemble_noninterference {} hsame' with ⟨_, _, hp, _⟩ | ⟨errors', herrors', hsecond⟩
    · cases herrors.symm.trans hp
    · obtain rfl := Except.error.inj (herrors.symm.trans herrors')
      exact ⟨errors, herrors, hsecond, hlines⟩

end Breadboard
