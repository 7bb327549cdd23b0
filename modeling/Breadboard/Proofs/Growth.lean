import Breadboard.Proofs.Emission
import Breadboard.Proofs.Resolving

/-! Programs that grow. Without redefinition a request takes nothing back: the lines stay where they
are, and so do the labels. So the bytes of a program that has machine code are the first bytes of every
program that grows out of it, and where a later program has none, a later line is at fault.

With redefinition a label can be bound anew, and then the bytes of earlier lines change. -/

set_option autoImplicit false

namespace Breadboard

open Measured

namespace Program

/-- The second program has all that the first one has, and more lines behind it. -/
structure GrowsTo (p q : Program) : Prop where
  config_eq : q.config = p.config
  size_le : p.size ≤ q.size
  labels : ∀ name a, p.labels.find? name = some a → q.labels.find? name = some a
  lines : ∃ added, q.lines = p.lines ++ added ∧
    ∀ l ∈ added, p.size ≤ l.address ∧ l.statement.length = .ok l.length

namespace GrowsTo
variable {p q s : Program}

theorem refl (p : Program) : p.GrowsTo p :=
  ⟨rfl, Nat.le_refl p.size, fun _ _ => id, [], by simp, by simp⟩

theorem trans (h : p.GrowsTo q) (h' : q.GrowsTo s) : p.GrowsTo s := by
  obtain ⟨added, hlines, hadded⟩ := h.lines
  obtain ⟨added', hlines', hadded'⟩ := h'.lines
  refine ⟨h'.config_eq.trans h.config_eq, Nat.le_trans h.size_le h'.size_le,
    fun name a ha => h'.labels name a (h.labels name a ha), added ++ added', ?_, ?_⟩
  · rw [hlines', hlines, List.append_assoc]
  · intro l hl
    rcases List.mem_append.mp hl with hl | hl
    · exact hadded l hl
    · obtain ⟨haddress, hlength⟩ := hadded' l hl
      exact ⟨Nat.le_trans h.size_le haddress, hlength⟩

/-- The machine code of a program stands in front of the machine code of what grows out of it, and only
a later line can keep this from having machine code. -/
theorem machineCode (h : p.GrowsTo q) {bytes : List UInt8} (hbytes : p.machineCode = .ok bytes) :
    (∃ more, q.machineCode = .ok (bytes ++ more)) ∨
      ∃ name address, q.machineCode = .error (.unresolvedLabel name address) ∧ p.size ≤ address := by
  obtain ⟨added, hlines, hadded⟩ := h.lines
  obtain ⟨codes, hcodes, rfl⟩ := machineCode_eq_ok_iff.mp hbytes
  have hfront : p.lines.Forall₂ (fun l w => q.encode l = .ok w) codes :=
    hcodes.imp fun l w hw => encode_eq_ok_iff.mpr (Statement.encode_mono hw h.labels)
  unfold Program.machineCode
  rw [hlines]
  cases hadd : added.mapM q.encode with
  | ok more =>
    left
    have hall := List.rel_append hfront (Except.mapM_eq_ok_iff.mp hadd)
    refine ⟨more.flatten, Except.map_eq_ok_iff.mpr ⟨codes ++ more, ?_, List.flatten_append⟩⟩
    exact Except.mapM_eq_ok_iff.mpr hall
  | error e =>
    right
    obtain ⟨front, l, back, hsplit, hok, hl⟩ := Except.mapM_eq_error_iff.mp hadd
    obtain ⟨haddress, hlength⟩ := hadded l (by simp [hsplit])
    obtain ⟨_, name, _, _, rfl⟩ := (encode_eq_error_iff hlength).mp hl
    refine ⟨name, l.address, Except.map_eq_error_iff.mpr (Except.mapM_eq_error_iff.mpr
      ⟨p.lines ++ front, l, back, ?_, ?_, hl⟩), haddress⟩
    · rw [hsplit, List.append_assoc]
    · intro k hk
      rcases List.mem_append.mp hk with hk | hk
      · obtain ⟨w, _, hw⟩ := Except.exists_of_forall₂ hfront k hk
        exact ⟨w, hw⟩
      · exact hok k hk

end GrowsTo

section Requests
variable {p : Program} (h : p.config.allowRedefinition = false)
include h

theorem growsTo_extend {m : Measured} (hm : p.Accepts m) : p.GrowsTo (p.extend m) where
  config_eq := rfl
  size_le := Nat.le_add_right p.size m.length
  labels name a ha := by
    unfold extend
    cases hlabel : m.label with
    | none => exact ha
    | some other =>
      -- The label is not bound yet, so it is not the one that keeps its address.
      have hnone := (hm.2 other hlabel).2.resolve_left (by simp [h])
      have hne : name ≠ other := by
        rintro rfl
        rw [hnone] at ha
        cases ha
      rw [Option.elim_some, LabelTable.find?_insert, if_neg hne]
      exact ha
  lines := ⟨[⟨p.size, m.length, m.statement⟩], rfl, by simp [m.length_eq]⟩

theorem growsTo_after (r : Request) : p.GrowsTo (p.after r) := by
  cases hr : p.answer r with
  | ok q =>
    obtain ⟨m, _, hm, rfl⟩ := answer_eq_ok hr
    rw [after_of_ok hr]
    exact growsTo_extend h hm
  | error e =>
    rw [after_of_error hr]
    exact .refl p

theorem growsTo_foldl_after (rs : List Request) : p.GrowsTo (rs.foldl after p) := by
  induction rs generalizing p with
  | nil => exact .refl p
  | cons r rs ih =>
    have hr := growsTo_after h r
    rw [List.foldl_cons]
    exact hr.trans (ih (by rw [hr.config_eq, h]))

end Requests

theorem run_append (config : Config) (rs later : List Request) :
    run config (rs ++ later) = later.foldl after (run config rs) := by
  simp [run]

/-- Without redefinition, what a program that has machine code binds and emits does not change with
later requests. They add bytes behind, or leave a later line with a label that is not bound. -/
theorem machineCode_run_append {config : Config} (h : config.allowRedefinition = false)
    {rs : List Request} {bytes : List UInt8} (hbytes : (run config rs).machineCode = .ok bytes)
    (later : List Request) :
    (∀ name a, (run config rs).labels.find? name = some a →
      (run config (rs ++ later)).labels.find? name = some a) ∧
    ((∃ more, (run config (rs ++ later)).machineCode = .ok (bytes ++ more)) ∨
      ∃ name address, (run config (rs ++ later)).machineCode = .error (.unresolvedLabel name address) ∧
        (run config rs).size ≤ address) := by
  have hconfig : (run config rs).config.allowRedefinition = false := by
    rw [(invariant_run config rs).config_eq, h]
  have hgrows := growsTo_foldl_after hconfig later
  rw [← run_append] at hgrows
  exact ⟨hgrows.labels, hgrows.machineCode hbytes⟩

/-- A loop, a label that is declared again, and a call of a label that is not declared. -/
theorem machineCode_run_append_loop : ({} : Config).allowRedefinition = false ∧
    (run {} [.source "x: JMP #x"]).machineCode = .ok [0xEE, 0] ∧
    (run {} [.source "x: JMP #x", .source "x: HLT", .source "CALL #y"]).labels.find? "x" = some 0 ∧
    ∃ name address, (run {} [.source "x: JMP #x", .source "x: HLT", .source "CALL #y"]).machineCode =
      .error (.unresolvedLabel name address) ∧ 2 ≤ address := by
  have hcode : (run {} [.source "x: JMP #x"]).machineCode = .ok [0xEE, 0] := by rfl
  obtain ⟨hlabels, hlater⟩ :=
    machineCode_run_append rfl hcode [.source "x: HLT", .source "CALL #y"]
  refine ⟨rfl, hcode, hlabels "x" 0 rfl, ?_⟩
  rcases hlater with ⟨more, hmore⟩ | hlater
  · cases hmore
  · exact hlater

end Program

end Breadboard
