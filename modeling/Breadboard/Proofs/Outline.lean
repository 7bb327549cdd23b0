import Breadboard.Proofs.Assembly

/-! Changing statements without moving them. To place a statement, a program needs no more of it than
its label and its length. So statements that are changed but keep these fit together as before, lie
where they did and give the same label table, and if each still encodes to the same bytes, the machine
code is the same as well. -/

set_option autoImplicit false

namespace Breadboard

open Measured

namespace Measured

variable {g : Measured → Measured}

section Length
variable (hlength : ∀ m, (g m).length = m.length)
include hlength

theorem total_map (ms : List Measured) : total (ms.map g) = total ms := by
  simp [total, Function.comp_def, hlength]

theorem offset_map (ms : List Measured) (i : Nat) : offset (ms.map g) i = offset ms i := by
  unfold offset
  rw [← List.map_take, total_map hlength]

theorem Fit.map (hlabel : ∀ m, (g m).label = m.label) {config : Config} {ms : List Measured}
    (h : Fit config ms) : Fit config (ms.map g) := by
  refine ⟨?_, ?_, ?_⟩
  · rw [total_map hlength]
    exact h.total_le
  · intro i m hi hm
    rw [List.getElem?_map] at hi
    obtain ⟨n, hn, rfl⟩ := Option.map_eq_some_iff.mp hi
    rw [hlabel] at hm
    rw [offset_map hlength]
    exact h.label_lt i n hn hm
  · have hlabels : label ∘ g = label := funext hlabel
    rw [List.filterMap_map, hlabels]
    exact h.labels_nodup

end Length

end Measured

namespace Program

def placements (p : Program) : List (Nat × Nat) := p.lines.map fun l => (l.address, l.length)

variable (config : Config) {g : Measured → Measured} (hlength : ∀ m, (g m).length = m.length)
include hlength

theorem placements_ofMeasured_map (ms : List Measured) :
    (ofMeasured config (ms.map g)).placements = (ofMeasured config ms).placements := by
  unfold placements
  rw [lines_ofMeasured, lines_ofMeasured]
  apply List.ext_getElem?
  intro i
  rw [List.getElem?_map, List.getElem?_map, getElem?_placed, getElem?_placed, List.getElem?_map,
    offset_map hlength]
  cases ms[i]? with
  | none => rfl
  | some m => simp [hlength]

theorem labels_ofMeasured_map (hlabel : ∀ m, (g m).label = m.label) (ms : List Measured) :
    (ofMeasured config (ms.map g)).labels = (ofMeasured config ms).labels := by
  induction ms using List.reverseRecOn with
  | nil => rfl
  | append_singleton ms m ih =>
    rw [List.map_append, List.map_singleton, ofMeasured_concat, ofMeasured_concat]
    unfold extend
    rw [ih, hlabel, size_ofMeasured, size_ofMeasured, total_map hlength]

end Program

/-- A text whose statements are those of another text with such changes assembles as this does. -/
theorem assembleLines_map {g : Measured → Measured} (hlength : ∀ m, (g m).length = m.length)
    (hlabel : ∀ m, (g m).label = m.label) {texts texts' : List String} {ms : List Measured}
    {config : Config} {p : Program} (h : assembleLines texts config = .ok p)
    (hread : Read texts ms) (hread' : Read texts' (ms.map g))
    (hencode : ∀ m w, m.statement.encode p.labels.find? = .ok w →
      (g m).statement.encode p.labels.find? = .ok w) :
    assembleLines texts' config = .ok (.ofMeasured config (ms.map g)) ∧
      (∃ code, p.machineCode = .ok code ∧
        (Program.ofMeasured config (ms.map g)).machineCode = .ok code) ∧
      (Program.ofMeasured config (ms.map g)).placements = p.placements ∧
      (Program.ofMeasured config (ms.map g)).labels = p.labels := by
  obtain ⟨ns, hns, hfit, hclosed, rfl⟩ := assembleLines_eq_ok_iff.mp h
  obtain rfl := hns.unique hread
  have hlabels := Program.labels_ofMeasured_map config hlength hlabel ns
  obtain ⟨code, hcode⟩ := (Program.exists_machineCode_iff_closed config ns).mpr hclosed
  have hcode' : (Program.ofMeasured config (ns.map g)).machineCode = .ok code := by
    obtain ⟨codes, hcodes, hflatten⟩ :=
      (Program.machineCode_ofMeasured_eq_ok_iff config ns code).mp hcode
    refine (Program.machineCode_ofMeasured_eq_ok_iff config _ code).mpr ⟨codes, ?_, hflatten⟩
    rw [hlabels, List.forall₂_map_left_iff]
    exact hcodes.imp hencode
  have hclosed' := (Program.exists_machineCode_iff_closed config _).mp ⟨code, hcode'⟩
  exact ⟨assembleLines_eq_ok_iff.mpr ⟨_, hread', hfit.map hlength hlabel, hclosed', rfl⟩,
    ⟨code, hcode, hcode'⟩, Program.placements_ofMeasured_map config hlength ns, hlabels⟩

end Breadboard
