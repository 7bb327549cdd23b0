import Breadboard.Machine.Head
import Breadboard.Text.Numeral

/-! Instructions as they are read back from bytes, and their text in assembler syntax. -/

set_option autoImplicit false

namespace Breadboard

structure Instr extends Head where
  width : Nat
  imm : Option UInt8
  deriving Repr, DecidableEq

/-- A field as an operand. An immediate that is not there is written as a question mark. -/
def Field.text (imm : Option UInt8) (f : Field) : String :=
  let name :=
    if f.fetches then imm.elim "?" fun v => Text.decimal v.toNat
    else f.register.name
  if f.indirect then "[" ++ name ++ "]" else name

namespace Instr

/-- The instruction at the start of `bytes`. There is none if the first byte is an unused encoding,
or if it calls for an immediate and is the last byte. -/
def decode? : List UInt8 → Option Instr
  | [] => none
  | byte :: rest =>
    match Head.ofByte? byte with
    | none => none
    | some head =>
      if head.fetches then rest.head?.map fun imm => ⟨head, 2, some imm⟩
      else some ⟨head, 1, none⟩

def text (i : Instr) : String :=
  match i.dest, i.src with
  | some dest, some src =>
    i.op.mnemonic ++ " " ++ dest.text i.imm ++ ", " ++ src.text i.imm
  | some field, none => i.op.mnemonic ++ " " ++ field.text i.imm
  | none, some field => i.op.mnemonic ++ " " ++ field.text i.imm
  | none, none => i.op.mnemonic

theorem width_of_decode? {bytes : List UInt8} {i : Instr} (h : decode? bytes = some i) :
    0 < i.width ∧ i.width ≤ bytes.length := by
  cases bytes with
  | nil => simp [decode?] at h
  | cons byte rest =>
    simp only [decode?] at h
    split at h
    · cases h
    · split at h
      · cases rest with
        | nil => simp at h
        | cons v rest =>
          obtain rfl : _ = i := by simpa using h
          simp
      · obtain rfl : _ = i := by simpa using h
        simp

end Instr

end Breadboard
