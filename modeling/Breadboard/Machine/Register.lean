/-! Registers and the fields of an instruction that name them. A field names a register directly or
takes the byte at the address that the register holds. An immediate is fetched through the program
counter, so a field on the program counter stands for the byte after the instruction's first one. -/

set_option autoImplicit false

namespace Breadboard

inductive Register
  | a
  | b
  | alo
  | out
  | pc
  deriving Repr, DecidableEq

namespace Register

def name : Register → String
  | a => "A"
  | b => "B"
  | alo => "ALO"
  | out => "OUT"
  | pc => "PC"

/-- The register that a source text means by a name. The program counter cannot be named. -/
def ofName? (s : String) : Option Register :=
  if s = "A" then some a
  else if s = "B" then some b
  else if s = "ALO" then some alo
  else if s = "OUT" then some out
  else none

theorem ofName?_eq_some_iff {s : String} {r : Register} :
    ofName? s = some r ↔ r ≠ pc ∧ s = r.name := by
  constructor
  · intro h
    simp only [ofName?] at h
    repeat' split at h
    all_goals first | (obtain rfl := Option.some.inj h; exact ⟨by decide, by assumption⟩) | cases h
  · rintro ⟨hr, rfl⟩
    cases r <;> first | rfl | exact absurd rfl hr

end Register

/-- A register field: the register, and whether it is taken as an address. -/
structure Field where
  register : Register
  indirect : Bool
  deriving Repr, DecidableEq

namespace Field

/-- True of the fields that fetch the byte after the head byte. -/
def fetches (f : Field) : Bool := f.register = .pc

/-- The code of a field that is read. `OUT` cannot be read. -/
def sourceCode? (f : Field) : Option UInt8 :=
  match f.register, f.indirect with
  | .a, false => some 0
  | .a, true => some 1
  | .b, false => some 2
  | .b, true => some 3
  | .alo, false => some 4
  | .alo, true => some 5
  | .pc, false => some 6
  | .pc, true => some 7
  | .out, _ => none

/-- The field with the given source code, of which the low three bits count. -/
def ofSourceCode (code : UInt8) : Field :=
  match code.toNat % 8 with
  | 0 => ⟨.a, false⟩
  | 1 => ⟨.a, true⟩
  | 2 => ⟨.b, false⟩
  | 3 => ⟨.b, true⟩
  | 4 => ⟨.alo, false⟩
  | 5 => ⟨.alo, true⟩
  | 6 => ⟨.pc, false⟩
  | _ => ⟨.pc, true⟩

/-- The code of a field that is written. `ALO` is written only through its address, `OUT` only
directly, and an immediate only as an address. -/
def destCode? (f : Field) : Option UInt8 :=
  match f.register, f.indirect with
  | .a, false => some 0
  | .a, true => some 1
  | .b, false => some 2
  | .b, true => some 3
  | .alo, true => some 4
  | .out, false => some 5
  | .pc, true => some 6
  | .alo, false => none
  | .out, true => none
  | .pc, false => none

/-- The field with the given destination code, of which the low three bits count. Seven is unused. -/
def ofDestCode? (code : UInt8) : Option Field :=
  match code.toNat % 8 with
  | 0 => some ⟨.a, false⟩
  | 1 => some ⟨.a, true⟩
  | 2 => some ⟨.b, false⟩
  | 3 => some ⟨.b, true⟩
  | 4 => some ⟨.alo, true⟩
  | 5 => some ⟨.out, false⟩
  | 6 => some ⟨.pc, true⟩
  | _ => none

theorem ofSourceCode_of_sourceCode? {f : Field} {c : UInt8} (h : f.sourceCode? = some c) :
    ofSourceCode c = f := by
  obtain ⟨r, i⟩ := f
  cases r <;> cases i <;> simp [sourceCode?] at h <;> subst h <;> rfl

theorem ofDestCode?_of_destCode? {f : Field} {c : UInt8} (h : f.destCode? = some c) :
    ofDestCode? c = some f := by
  obtain ⟨r, i⟩ := f
  cases r <;> cases i <;> simp [destCode?] at h <;> subst h <;> rfl

end Field

end Breadboard
