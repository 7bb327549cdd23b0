import Breadboard.Machine.Instr

/-! Linear sweeps. A sweep reads instructions from the first byte on, one behind the other; a byte
that starts no instruction gets a row of its own. Where the instructions of the program really begin
is not known to it. -/

set_option autoImplicit false

namespace Breadboard

/-- A row of a sweep: the bytes at an address and the instruction that they encode, if any. -/
structure SweepRow where
  address : Nat
  bytes : List UInt8
  instr : Option Instr
  deriving Repr, DecidableEq

namespace SweepRow

def family (r : SweepRow) : Option Family := r.instr.map fun i => i.op.family

def text (r : SweepRow) : String :=
  match r.instr with
  | some i => i.text
  | none => "??" ++ String.join (r.bytes.map fun b => " " ++ Text.address b.toNat)

end SweepRow

def sweepFrom (address : Nat) (bytes : List UInt8) : List SweepRow :=
  match bytes with
  | [] => []
  | byte :: rest =>
    match Instr.decode? (byte :: rest) with
    | none => ⟨address, [byte], none⟩ :: sweepFrom (address + 1) rest
    | some i =>
      ⟨address, byte :: rest.take (i.width - 1), some i⟩ ::
        sweepFrom (address + i.width) (rest.drop (i.width - 1))
termination_by bytes.length

def sweep (bytes : List UInt8) : List SweepRow := sweepFrom 0 bytes

/-- The text of a sweep as assembler source: the rows without their addresses, one on each line. -/
def sweepSource (rows : List SweepRow) : String := String.intercalate "\n" (rows.map SweepRow.text)

end Breadboard
