import Breadboard.Source.Encoding
import Breadboard.Source.Line

/-! Statements: lines whose operands have been read. A statement encodes to no bytes if it has no
opcode and to one or two otherwise. How many does not depend on where the labels are, so a statement
can be placed before its labels are known. -/

set_option autoImplicit false

namespace Breadboard

structure Statement where
  line : Line
  operands : List Operand
  deriving Repr, DecidableEq

namespace Statement

/-- Reads the operands of a line, the first one first. -/
def ofLine (line : Line) : Except ParseError Statement :=
  ((line.first.toList ++ line.second.toList).mapM Operand.parse).map fun operands => ⟨line, operands⟩

def parse (text : String) : Except ParseError Statement := (Line.parse text).bind ofLine

def encode (resolve : Resolver) (s : Statement) : Except EncodeError (List UInt8) :=
  if s.line.isEmpty then .ok []
  else match Op.ofMnemonic? s.line.opcode with
    | none => .error (.unknownOpcode s.line.opcode)
    | some op => (Encoding.of op s.operands).bind (Encoding.bytes resolve)

/-- The number of bytes of a statement, measured with every label at zero. -/
def length (s : Statement) : Except EncodeError Nat := (s.encode Resolver.zero).map List.length

end Statement

end Breadboard
