import Breadboard.Machine.Operation
import Breadboard.Machine.Register

/-! The head byte of an instruction. It fixes the operation and both register fields; only the value
of an immediate comes after it.

A byte below 128 holds an arithmetic code and a source field. A byte from 128 to 191 is a move with a
destination and a source field. The bytes from 192 on hold a kind of ancillary operation and a
source field, except that three of them are operations without operands. -/

set_option autoImplicit false

namespace Breadboard

/-- The head byte of a move. Bits that do not fit into eight are lost. -/
def moveByte (dest src : UInt8) : UInt8 := (0x80 : UInt8) ||| (dest <<< 3) ||| src

def aluByte (code src : UInt8) : UInt8 := (code <<< 3) ||| src

def ancillaryByte (kind src : UInt8) : UInt8 := (0xC0 : UInt8) ||| (kind <<< 3) ||| src

/-- What a head byte fixes: the operation, the field it writes and the field it reads. -/
structure Head where
  op : Op
  dest : Option Field
  src : Option Field
  deriving Repr, DecidableEq

namespace Head

/-- True when one more byte belongs to the instruction. -/
def fetches (h : Head) : Bool := h.dest.any Field.fetches || h.src.any Field.fetches

/-- The head of a move. At most one field is an address in memory and at most one is an immediate. -/
def move? (dest src : Field) : Option Head :=
  if (dest.indirect && src.indirect) || (dest.fetches && src.fetches) then none
  else some ⟨.mov, some dest, some src⟩

/-- The head of an ancillary operation. The stack operations take registers only, and what is popped
into must be writable. -/
def ancillary? (op : Op) (field : Field) : Option Head :=
  match op with
  | .push => if field.fetches then none else some ⟨.push, none, some field⟩
  | .pop => if field.fetches || field.destCode?.isNone then none else some ⟨.pop, some field, none⟩
  | op => some ⟨op, none, some field⟩

/-- The head that a byte encodes, or `none` for an unused encoding. -/
def ofByte? (byte : UInt8) : Option Head :=
  let src := Field.ofSourceCode byte
  if byte < 0x80 then
    (Op.ofAluCode? (byte >>> 3)).map fun op => ⟨op, none, some src⟩
  else if byte < 0xC0 then
    (Field.ofDestCode? (byte >>> 3)).bind fun dest => move? dest src
  else
    match Op.ofFixed? byte with
    | some op => some ⟨op, none, none⟩
    | none => ancillary? (Op.ofKind (byte >>> 3)) src

end Head

end Breadboard
