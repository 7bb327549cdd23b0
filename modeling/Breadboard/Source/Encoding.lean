import Breadboard.Machine.Head
import Breadboard.Source.Operand

/-! Encodings of operations with their operands. An operation and operands that suit it have a head
byte and at most one immediate behind it; everything that can be wrong with them is found without
knowing where the labels are. Only then are the labels resolved, to give the bytes. -/

set_option autoImplicit false

namespace Breadboard

/-- A fault of a statement as a whole: its operation does not exist, or cannot take its operands. -/
inductive EncodeError
  | unknownOpcode (opcode : String)
  | operandCount (op : Op) (found : Nat)
  /-- Both operands of a move are addresses. -/
  | bothDereferenced
  /-- Both operands of a move are immediates. -/
  | twoImmediates
  | notReadable (op : Op) (operand : Operand)
  | notWritable (op : Op) (operand : Operand)
  /-- The operand could be written, but there is no source code to name it by. -/
  | unencodable (op : Op) (operand : Operand)
  | registerRequired (op : Op) (operand : Operand)
  /-- The head byte would be that of an operation without operands. -/
  | reserved (op : Op) (operand : Operand) (byte : UInt8) (owner : Op)
  | undefinedLabel (name : String)
  deriving Repr, DecidableEq

namespace EncodeError

def about (op : Op) (operand : Operand) (fault : String) : String :=
  op.mnemonic ++ ": " ++ cite operand.render ++ " " ++ fault

def message : EncodeError → String
  | unknownOpcode opcode => "unknown opcode " ++ cite opcode
  | operandCount op found =>
    op.mnemonic ++ " takes " ++ Text.decimal op.arity ++ " operand(s), found " ++ Text.decimal found
  | bothDereferenced =>
    Op.mov.mnemonic ++ ": source and destination cannot both be dereferenced"
  | twoImmediates => Op.mov.mnemonic ++ ": only one operand may be an immediate"
  | notReadable op operand => about op operand "cannot be read"
  | notWritable op operand => about op operand "cannot be written"
  | unencodable op operand => about op operand "has no register field encoding"
  | registerRequired op operand => about op operand "must be a register"
  | reserved op operand byte owner =>
    op.mnemonic ++ " " ++ operand.render ++ " would encode as " ++ Text.address byte.toNat ++
      ", which is reserved for " ++ owner.mnemonic
  | undefinedLabel name => "undefined label " ++ cite name

end EncodeError

/-- Gives labels their addresses; `none` for a label that has none. -/
abbrev Resolver := String → Option UInt8

/-- Puts every label at address zero, which serves to measure an instruction. -/
def Resolver.zero : Resolver := fun _ => some 0

def Immediate.byte (resolve : Resolver) : Immediate → Except EncodeError UInt8
  | literal value => .ok value
  | label name => (resolve name).elim (.error (.undefinedLabel name)) .ok

structure Encoding where
  head : UInt8
  immediate : Option Immediate
  deriving Repr, DecidableEq

namespace Encoding

def bytes (resolve : Resolver) (e : Encoding) : Except EncodeError (List UInt8) :=
  match e.immediate with
  | none => .ok [e.head]
  | some i => (i.byte resolve).map fun v => [e.head, v]

/-- A move. At most one operand is an address and at most one an immediate. -/
def move (dest src : Operand) : Except EncodeError Encoding :=
  if dest.indirect && src.indirect then .error .bothDereferenced
  else if !dest.isRegister && !src.isRegister then .error .twoImmediates
  else match dest.field.destCode?, src.field.sourceCode? with
    | none, _ => .error (.notWritable .mov dest)
    | some _, none => .error (.notReadable .mov src)
    | some d, some s => .ok ⟨moveByte d s, dest.immediate?.or src.immediate?⟩

/-- An operation on one operand that it reads; `head` makes the head byte of the source code. -/
def source (op : Op) (head : UInt8 → UInt8) (src : Operand) : Except EncodeError Encoding :=
  match src.field.sourceCode? with
  | none => .error (.notReadable op src)
  | some s => .ok ⟨head s, src.immediate?⟩

/-- The encoding of a stack operation whose register has the given source code. The byte may belong
to an operation without operands. -/
def stackByte (op : Op) (kind : UInt8) (operand : Operand) (code : UInt8) :
    Except EncodeError Encoding :=
  let byte := ancillaryByte kind code
  match Op.ofFixed? byte with
  | some owner => .error (.reserved op operand byte owner)
  | none => .ok ⟨byte, none⟩

/-- A push or a pop. A register that is popped into has to be writable as well. -/
def stack (op : Op) (kind : UInt8) (operand : Operand) : Except EncodeError Encoding :=
  if !operand.isRegister then .error (.registerRequired op operand)
  else if op = .pop && operand.field.destCode?.isNone then .error (.notWritable op operand)
  else match operand.field.sourceCode? with
    | some code => stackByte op kind operand code
    | none =>
      if op = .push then .error (.notReadable op operand) else .error (.unencodable op operand)

def of (op : Op) (operands : List Operand) : Except EncodeError Encoding :=
  match op.layout, operands with
  | .move, [dest, src] => move dest src
  | .alu code, [src] => source op (aluByte code) src
  | .branch kind, [src] => source op (ancillaryByte kind) src
  | .stack kind, [operand] => stack op kind operand
  | .fixed byte, [] => .ok ⟨byte, none⟩
  | _, operands => .error (.operandCount op operands.length)

end Encoding

end Breadboard
