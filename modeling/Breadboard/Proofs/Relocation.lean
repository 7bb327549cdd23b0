import Breadboard.Proofs.Reachable
import Breadboard.Proofs.Resolving

/-! Relocating a program. Lines without labels in front of a program move it up in memory by the
number of their bytes. Every line and every label lies that much higher, and so the bytes that are
addresses of labels are that much greater; no other byte changes. There must be room for the label of
an empty line at the end of the program, so the two parts together leave one byte free. -/

set_option autoImplicit false

namespace Breadboard

namespace Program

/-- The program that takes all requests, or the fault of the first one that it does not take. -/
def build (config : Config) (rs : List Request) : Except AssemblyError Program :=
  rs.foldlM answer (empty config)

end Program

/-- The byte at this address is behind the head byte of a line, and is the address of a label. -/
def LabelByte (lines : List Placed) (a : Nat) : Prop :=
  ∃ l ∈ lines, l.statement.UsesLabel ∧ a = l.address + 1

instance (lines : List Placed) (a : Nat) : Decidable (LabelByte lines a) :=
  inferInstanceAs (Decidable (∃ l ∈ lines, l.statement.UsesLabel ∧ a = l.address + 1))

def Placed.shift (k : Nat) (l : Placed) : Placed := { l with address := l.address + k }

def Request.statement : Request → Except ParseError Statement
  | line l => Statement.ofLine l
  | source text => Statement.parse text

namespace Measured

def Requested (rs : List Request) (ms : List Measured) : Prop :=
  rs.Forall₂ (fun r m => r.statement = .ok m.statement) ms

variable {config : Config} {ms ns : List Measured}

theorem Fit.append (hn : Fit config ns) (hnone : ∀ m ∈ ms, m.label = none)
    (hsize : total ms + total ns < addressSpace) : Fit config (ms ++ ns) := by
  rw [← total_append] at hsize
  refine ⟨Nat.le_of_lt hsize, ?_, ?_⟩
  · intro i m _ _
    exact Nat.lt_of_le_of_lt (offset_le_total _ i) hsize
  · have hlabels : ms.filterMap label = [] := List.filterMap_eq_nil_iff.mpr hnone
    rw [List.filterMap_append, hlabels, List.nil_append]
    exact hn.labels_nodup

theorem placed_append (ms ns : List Measured) :
    placed (ms ++ ns) = placed ms ++ (placed ns).map (Placed.shift (total ms)) := by
  induction ns using List.reverseRecOn with
  | nil => simp [placed]
  | append_singleton ns n ih =>
    rw [← List.append_assoc, placed_concat, placed_concat, ih, total_append, List.map_append,
      List.append_assoc, Nat.add_comm (total ms)]
    rfl

end Measured

open Measured

namespace Program

theorem answer_eq_ok_iff {p q : Program} {r : Request} : p.answer r = .ok q ↔
    ∃ m : Measured, r.statement = .ok m.statement ∧ p.Accepts m ∧ q = p.extend m := by
  cases r with
  | line l => exact add_eq_ok_iff
  | source text => exact addSource_eq_ok_iff

theorem foldlM_answer_eq_ok_iff {config : Config} {ms : List Measured} (h : Fit config ms)
    {rs : List Request} {p : Program} : rs.foldlM answer (ofMeasured config ms) = .ok p ↔
      ∃ ns, Requested rs ns ∧ Fit config (ms ++ ns) ∧ p = ofMeasured config (ms ++ ns) := by
  induction rs generalizing ms with
  | nil =>
    rw [List.foldlM_nil]
    constructor
    · intro hp
      cases hp
      exact ⟨[], .nil, by simpa using h, by simp⟩
    · intro ⟨_, hns, _, hp⟩
      rw [List.forall₂_nil_left_iff.mp hns, List.append_nil] at hp
      rw [hp]
      rfl
  | cons r rs ih =>
    rw [List.foldlM_cons]
    refine Except.bind_eq_ok_iff.trans ?_
    constructor
    · intro ⟨q, hq, hp⟩
      obtain ⟨m, hm, haccepts, rfl⟩ := answer_eq_ok_iff.mp hq
      have hfit := (accepts_ofMeasured_iff h m).mp haccepts
      rw [← ofMeasured_concat] at hp
      obtain ⟨ns, hns, hfit, rfl⟩ := (ih hfit).mp hp
      rw [← List.append_cons] at hfit ⊢
      exact ⟨m :: ns, .cons hm hns, hfit, rfl⟩
    · intro ⟨_, hns, hfit, hp⟩
      obtain ⟨m, ns, hm, htail, rfl⟩ := List.forall₂_cons_left_iff.mp hns
      rw [List.append_cons] at hfit hp
      have haccepts := (accepts_ofMeasured_iff h m).mpr hfit.of_append
      refine ⟨_, answer_eq_ok_iff.mpr ⟨m, hm, haccepts, rfl⟩, ?_⟩
      rw [← ofMeasured_concat]
      exact (ih hfit.of_append).mpr ⟨ns, htail, hfit, hp⟩

theorem build_eq_ok_iff {config : Config} {rs : List Request} {p : Program} :
    build config rs = .ok p ↔
      ∃ ms, Requested rs ms ∧ Fit config ms ∧ p = ofMeasured config ms := by
  have h : rs.foldlM answer (ofMeasured config []) = .ok p ↔ _ :=
    foldlM_answer_eq_ok_iff (fit_nil config)
  simpa [build] using h

variable (config : Config) {ms : List Measured}

theorem find?_ofMeasured_append (h : ∀ m ∈ ms, m.label = none) (ns : List Measured) (name : String) :
    (ofMeasured config (ms ++ ns)).labels.find? name =
      ((ofMeasured config ns).labels.find? name).map (· + UInt8.ofNat (total ms)) := by
  induction ns using List.reverseRecOn with
  | nil =>
    rw [List.append_nil, labels_ofMeasured config h]
    rfl
  | append_singleton ns n ih =>
    rw [← List.append_assoc, ofMeasured_concat, ofMeasured_concat]
    unfold extend
    cases n.label with
    | none => exact ih
    | some other =>
      simp only [Option.elim_some, LabelTable.find?_insert, size_ofMeasured, total_append, ih]
      by_cases hname : name = other
      · simp [hname, UInt8.ofNat_add, UInt8.add_comm]
      · simp [hname]

/-- An address of a label that is moved up does not leave the memory. -/
theorem toNat_add_total {ns : List Measured} (h : Fit config ns)
    (hsize : total ms + total ns < addressSpace) {name : String} {a : UInt8}
    (ha : (ofMeasured config ns).labels.find? name = some a) :
    (a + UInt8.ofNat (total ms)).toNat = a.toNat + total ms := by
  obtain ⟨i, _, ha⟩ := (find?_eq_some_iff_of_fit h name a).mp ha
  have hi := offset_le_total ns i
  unfold addressSpace at hsize
  rw [UInt8.toNat_add, UInt8.toNat_ofNat_of_lt' (show total ms < 256 by omega)]
  omega

end Program

section Bytes
variable {m : Measured} {ms : List Measured} {base a : Nat}

theorem le_address_of_mem_placedFrom {l : Placed} (h : l ∈ placedFrom base ms) :
    base ≤ l.address := by
  induction ms generalizing base with
  | nil => cases h
  | cons m ms ih =>
    rcases List.mem_cons.mp h with rfl | h
    · exact Nat.le_refl base
    · have := ih h
      omega

theorem labelByte_cons_of_lt (ha : a < m.length) :
    LabelByte (placedFrom base (m :: ms)) (base + a) ↔ m.statement.UsesLabel ∧ a = 1 := by
  constructor
  · intro ⟨l, hl, huse, haddress⟩
    rcases List.mem_cons.mp hl with rfl | hl
    · exact ⟨huse, Nat.add_left_cancel haddress⟩
    · have := le_address_of_mem_placedFrom hl
      omega
  · intro ⟨huse, ha⟩
    exact ⟨_, List.mem_cons_self, huse, by rw [ha]⟩

theorem labelByte_cons_of_ge (ha : m.length ≤ a) :
    LabelByte (placedFrom base (m :: ms)) (base + a) ↔
      LabelByte (placedFrom (base + m.length) ms) (base + a) := by
  constructor
  · intro ⟨l, hl, huse, haddress⟩
    rcases List.mem_cons.mp hl with rfl | hl
    · have hlength := Statement.length_of_usesLabel m.length_eq huse
      have haddress : a = 1 := Nat.add_left_cancel haddress
      omega
    · exact ⟨l, hl, huse, haddress⟩
  · intro ⟨l, hl, h⟩
    exact ⟨l, List.mem_cons_of_mem _ hl, h⟩

def relocated (f : UInt8 → UInt8) (ms : List Measured) (codes : List (List UInt8)) : List UInt8 :=
  (ms.zipWith (fun m w => m.statement.relocate f w) codes).flatten

variable {r r' : Resolver} {f : UInt8 → UInt8} {codes : List (List UInt8)}
  (h : ms.Forall₂ (fun m w => m.statement.encode r = .ok w) codes)
include h

theorem length_relocated : (relocated f ms codes).length = codes.flatten.length := by
  unfold relocated
  induction h with
  | nil => rfl
  | cons _ _ ih => simp [ih]

theorem getElem?_relocated (base a : Nat) : (relocated f ms codes)[a]? =
    codes.flatten[a]?.map fun b => if LabelByte (placedFrom base ms) (base + a) then f b else b := by
  induction h generalizing base a with
  | nil => rfl
  | @cons m w ms codes hm _ ih =>
    have hlength := Statement.length_of_encode m.length_eq hm
    unfold relocated at ih ⊢
    rw [List.zipWith_cons_cons, List.flatten_cons, List.flatten_cons, List.getElem?_append,
      List.getElem?_append, Statement.length_relocate]
    split
    · next ha =>
      rw [Statement.getElem?_relocate]
      simp only [labelByte_cons_of_lt (hlength ▸ ha)]
    · next ha =>
      have hge : m.length ≤ a := by omega
      have hrest := ih (base + m.length) (a - w.length)
      have haddress : base + m.length + (a - w.length) = base + a := by omega
      rw [haddress] at hrest
      simp only [hrest, labelByte_cons_of_ge hge]

theorem exists_of_labelByte (ha : LabelByte (placedFrom base ms) (base + a)) {b : UInt8}
    (hb : codes.flatten[a]? = some b) : ∃ name, r name = some b := by
  induction h generalizing base a with
  | nil => cases hb
  | @cons m w ms codes hm _ ih =>
    have hlength := Statement.length_of_encode m.length_eq hm
    rw [List.flatten_cons, List.getElem?_append] at hb
    split at hb
    · next hlt =>
      obtain ⟨huse, rfl⟩ := (labelByte_cons_of_lt (hlength ▸ hlt)).mp ha
      exact Statement.exists_of_usesLabel hm huse hb
    · next hge =>
      have hrest := (labelByte_cons_of_ge (by omega)).mp ha
      have haddress : base + a = base + m.length + (a - w.length) := by omega
      rw [haddress] at hrest
      exact ih hrest hb

theorem encode_relocated (hr : ∀ name v, r name = some v → r' name = some (f v)) :
    ms.Forall₂ (fun m w => m.statement.encode r' = .ok w)
      (ms.zipWith (fun m w => m.statement.relocate f w) codes) := by
  induction h with
  | nil => exact .nil
  | cons hm _ ih => exact .cons (Statement.encode_relocate hm hr) ih

end Bytes

namespace Program

variable {config : Config} {ms ns : List Measured}

theorem machineCode_append (hnone : ∀ m ∈ ms, m.label = none) {front : List UInt8}
    (hfront : (ofMeasured config ms).machineCode = .ok front) {codes : List (List UInt8)}
    (hcodes : ns.Forall₂ (fun m w =>
      m.statement.encode (ofMeasured config ns).labels.find? = .ok w) codes) :
    (ofMeasured config (ms ++ ns)).machineCode =
      .ok (front ++ relocated (· + UInt8.ofNat (total ms)) ns codes) := by
  have hfind := find?_ofMeasured_append config hnone ns
  obtain ⟨fronts, hfronts, rfl⟩ := (machineCode_ofMeasured_eq_ok_iff config ms front).mp hfront
  rw [machineCode_ofMeasured_eq_ok_iff]
  refine ⟨_, List.rel_append ?_ (encode_relocated hcodes ?_), List.flatten_append⟩
  · apply hfronts.imp
    intro m w hm
    -- No label is bound in front, so the statements there do not use any.
    apply Statement.encode_mono hm
    intro name v hv
    rw [labels_ofMeasured config hnone] at hv
    cases hv
  · intro name v hv
    rw [hfind, hv]
    rfl

/-- Requests that declare no label, in front of others, move the program of these up. Its lines, its
labels and the bytes that are addresses of labels are greater by the size of what is in front. -/
theorem build_append_relocates {qs ss : List Request} {q s : Program} (hq : build config qs = .ok q)
    (hnone : ∀ l ∈ q.lines, l.statement.line.label = none) (hs : build config ss = .ok s)
    (hsize : q.size + s.size ≤ 255) :
    ∃ p, build config (qs ++ ss) = .ok p ∧
      p.lines = q.lines ++ s.lines.map (Placed.shift q.size) ∧
      (∀ name, (p.labels.find? name).map UInt8.toNat =
        (s.labels.find? name).map fun a => a.toNat + q.size) ∧
      ∀ front code, q.machineCode = .ok front → s.machineCode = .ok code →
        ∃ code', p.machineCode = .ok (front ++ code') ∧ code'.length = code.length ∧
          ∀ (a : Nat) (b : UInt8), code[a]? = some b → ∃ b', code'[a]? = some b' ∧
            b'.toNat = b.toNat + if LabelByte s.lines a then q.size else 0 := by
  obtain ⟨ms, hms, _, rfl⟩ := build_eq_ok_iff.mp hq
  obtain ⟨ns, hns, hfit, rfl⟩ := build_eq_ok_iff.mp hs
  simp only [lines_ofMeasured, size_ofMeasured] at hnone hsize ⊢
  have hnone : ∀ m ∈ ms, m.label = none :=
    (forall_mem_placed_iff (P := fun s => s.line.label = none)).mp hnone
  have hsize : total ms + total ns < addressSpace := Nat.lt_succ_of_le hsize
  refine ⟨ofMeasured config (ms ++ ns), build_eq_ok_iff.mpr ⟨ms ++ ns, List.rel_append hms hns,
    hfit.append hnone hsize, rfl⟩, ?_, ?_, ?_⟩
  · rw [lines_ofMeasured, placed_append]
  · intro name
    rw [find?_ofMeasured_append config hnone, Option.map_map]
    exact Option.map_congr fun a ha => toNat_add_total config hfit hsize ha
  · intro front code hfront hcode
    obtain ⟨codes, hcodes, rfl⟩ := (machineCode_ofMeasured_eq_ok_iff config ns code).mp hcode
    refine ⟨_, machineCode_append hnone hfront hcodes, length_relocated hcodes, ?_⟩
    intro a b hb
    have hbyte := getElem?_relocated hcodes (f := (· + UInt8.ofNat (total ms))) 0 a
    rw [hb, Option.map_some, ← placed_eq_placedFrom, Nat.zero_add] at hbyte
    refine ⟨_, hbyte, ?_⟩
    split
    · next ha =>
      rw [placed_eq_placedFrom, ← Nat.zero_add a] at ha
      obtain ⟨name, hname⟩ := exists_of_labelByte hcodes ha hb
      exact toNat_add_total config hfit hsize hname
    · rfl

/-- A move in front of a loop moves up the label of the loop and the jump to it, and nothing else. -/
theorem build_append_relocates_loop : ∃ q s p,
    build {} [.source "MOV A, 3"] = .ok q ∧ build {} [.source "x: ADD 3", .source "JMP #x"] = .ok s ∧
      (∀ l ∈ q.lines, l.statement.line.label = none) ∧ q.size + s.size ≤ 255 ∧
      build {} [.source "MOV A, 3", .source "x: ADD 3", .source "JMP #x"] = .ok p ∧
      p.lines = q.lines ++ s.lines.map (Placed.shift 2) ∧
      s.machineCode = .ok [0x16, 3, 0xEE, 0] ∧ p.machineCode = .ok [0x86, 3, 0x16, 3, 0xEE, 2] := by
  obtain ⟨q, s, hq, hs, hnone, hsize, htwo, hcode⟩ : ∃ q s, build {} [.source "MOV A, 3"] = .ok q ∧
      build {} [.source "x: ADD 3", .source "JMP #x"] = .ok s ∧
      (∀ l ∈ q.lines, l.statement.line.label = none) ∧ q.size + s.size ≤ 255 ∧
      q.size = 2 ∧ s.machineCode = .ok [0x16, 3, 0xEE, 0] :=
    ⟨_, _, rfl, rfl, by decide, by decide, rfl, rfl⟩
  obtain ⟨p, hp, hlines, _, _⟩ := build_append_relocates hq hnone hs hsize
  obtain ⟨p', hp', hcode'⟩ : ∃ p',
      build {} [.source "MOV A, 3", .source "x: ADD 3", .source "JMP #x"] = .ok p' ∧
        p'.machineCode = .ok [0x86, 3, 0x16, 3, 0xEE, 2] := ⟨_, rfl, rfl⟩
  obtain rfl : p' = p := Except.ok.inj (hp'.symm.trans hp)
  rw [htwo] at hlines
  exact ⟨q, s, p', hq, hs, hnone, hsize, hp, hlines, hcode, hcode'⟩

end Program

end Breadboard
