import Breadboard.Proofs.Extension

/-! Refusals. A program refuses a statement that cannot be read or measured, that there is no room for,
or whose label is bound already. These cases say all that a fault shows, and of the program they look
only at its size, its labels and its choice on redefinition. -/

set_option autoImplicit false

namespace Breadboard

/-- The fault is one that shows only when every line is in. -/
def AssemblyError.isUnresolved : AssemblyError → Bool
  | unresolvedLabel .. => true
  | _ => false

namespace Program

/-- A program refuses what was read for this fault. The checks come in the order of the cases. -/
inductive Refuses (p : Program) (read : Except ParseError Statement) : AssemblyError → Prop
  | parse {fault : ParseError} (hread : read = .error fault) : Refuses p read (.parse fault)
  | encode {s : Statement} {fault : EncodeError} (hread : read = .ok s)
      (hlength : s.length = .error fault) : Refuses p read (.encode fault)
  | overflow {s : Statement} {length : Nat} (hread : read = .ok s) (hlength : s.length = .ok length)
      (hroom : addressSpace < p.size + length ∨ addressSpace ≤ p.size ∧ s.line.label.isSome) :
      Refuses p read (.addressOverflow p.size length)
  | redefined {s : Statement} {length : Nat} {name : String} {a : UInt8} (hread : read = .ok s)
      (hlength : s.length = .ok length) (hroom : p.size + length ≤ addressSpace)
      (hlabel : s.line.label = some name) (hsize : p.size < addressSpace)
      (hfind : p.labels.find? name = some a) (hallow : p.config.allowRedefinition = false) :
      Refuses p read (.redefinedLabel name a)

theorem Refuses.isUnresolved {p : Program} {read : Except ParseError Statement} {e : AssemblyError}
    (h : p.Refuses read e) : e.isUnresolved = false := by
  cases h <;> rfl

section Refusal
variable {p : Program} {e : AssemblyError}

theorem bindLabel_eq_error_iff {length : Nat} {label : Option String} :
    p.bindLabel length label = .error e ↔ ∃ name, label = some name ∧
      (addressSpace ≤ p.size ∧ e = .addressOverflow p.size length ∨
        p.size < addressSpace ∧ p.config.allowRedefinition = false ∧
          ∃ a, p.labels.find? name = some a ∧ e = .redefinedLabel name a) := by
  cases label with
  | none => simp [bindLabel]
  | some name =>
    unfold bindLabel
    cases hfind : p.labels.find? name <;> grind

theorem refuses_of_place {s : Statement} {length : Nat} (hlength : s.length = .ok length)
    (h : p.place s length = .error e) : p.Refuses (.ok s) e := by
  unfold place at h
  split at h
  · next hroom =>
    split at h
    · next hbind =>
      cases h
      obtain ⟨name, hlabel, ⟨hsize, rfl⟩ | ⟨hsize, hallow, a, hfind, rfl⟩⟩ :=
        bindLabel_eq_error_iff.mp hbind
      · exact .overflow rfl hlength (.inr ⟨hsize, by simp [hlabel]⟩)
      · exact .redefined rfl hlength hroom hlabel hsize hfind hallow
    · cases h
  · next hroom =>
    cases h
    exact .overflow rfl hlength (.inl (by omega))

theorem place_of_bindLabel {s : Statement} {length : Nat} (hroom : p.size + length ≤ addressSpace)
    (h : p.bindLabel length s.line.label = .error e) : p.place s length = .error e := by
  unfold place
  rw [if_pos hroom, h]

theorem Refuses.place {s : Statement} {length : Nat} (hlength : s.length = .ok length)
    (h : p.Refuses (.ok s) e) : p.place s length = .error e := by
  cases h with
  | parse hread => cases hread
  | encode hread hfault =>
    cases hread
    rw [hlength] at hfault
    cases hfault
  | overflow hread hlength' hfull =>
    cases hread
    obtain rfl := Except.ok.inj (hlength.symm.trans hlength')
    by_cases hroom : p.size + length ≤ addressSpace
    · obtain ⟨hsize, hlabel⟩ := hfull.resolve_left (by omega)
      obtain ⟨name, hlabel⟩ := Option.isSome_iff_exists.mp hlabel
      exact place_of_bindLabel hroom (bindLabel_eq_error_iff.mpr ⟨name, hlabel, .inl ⟨hsize, rfl⟩⟩)
    · exact if_neg hroom
  | redefined hread hlength' hroom hlabel hsize hfind hallow =>
    cases hread
    obtain rfl := Except.ok.inj (hlength.symm.trans hlength')
    exact place_of_bindLabel hroom
      (bindLabel_eq_error_iff.mpr ⟨_, hlabel, .inr ⟨hsize, hallow, _, hfind, rfl⟩⟩)

theorem add_eq_error_iff {line : Line} :
    p.add line = .error e ↔ p.Refuses (Statement.ofLine line) e := by
  unfold add
  constructor
  · intro h
    split at h
    · next hread =>
      cases h
      exact hread ▸ .parse rfl
    · next s hread =>
      rw [hread]
      split at h
      · next hlength =>
        cases h
        exact .encode rfl hlength
      · next hlength => exact refuses_of_place hlength h
  · intro h
    split
    · next hread =>
      rw [hread] at h
      cases h with
      | parse hfault => cases hfault; rfl
      | _ => contradiction
    · next s hread =>
      rw [hread] at h
      split
      · next hlength =>
        cases h with
        | encode hs hfault =>
          cases hs
          cases hlength.symm.trans hfault
          rfl
        | parse hfault => cases hfault
        | overflow hs hok | redefined hs hok =>
          cases hs
          cases hlength.symm.trans hok
      · next hlength => exact h.place hlength

theorem addSource_eq_error_iff {text : String} :
    p.addSource text = .error e ↔ p.Refuses (Statement.parse text) e := by
  unfold addSource Statement.parse
  cases hline : Line.parse text with
  | ok line => exact add_eq_error_iff
  | error fault =>
    constructor
    · rintro ⟨⟩
      exact .parse rfl
    · intro h
      cases h with
      | parse hfault => cases hfault; rfl
      | _ => contradiction

end Refusal

end Program

end Breadboard
