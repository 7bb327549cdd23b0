import Breadboard.Machine.Register
import Breadboard.Source.ParseError
import Breadboard.Text.Numeral

/-! Operands: `A`, `[A]`, `42`, `[42]`, `#label`, `[#label]`. An operand is a register or an
immediate, and brackets take it as an address. Which of them an operation accepts is not decided
here. -/

set_option autoImplicit false

namespace Breadboard

/-- A value that becomes a byte of its own behind the head byte. -/
inductive Immediate
  | literal (value : UInt8)
  /-- The address of a label, which is not known before the whole text is read. -/
  | label (name : String)
  deriving Repr, DecidableEq

def Immediate.render : Immediate → String
  | literal value => Text.decimal value.toNat
  | label name => "#" ++ name

inductive Atom
  | register (r : Register)
  | immediate (i : Immediate)
  deriving Repr, DecidableEq

def Atom.render : Atom → String
  | register r => r.name
  | immediate i => i.render

structure Operand where
  atom : Atom
  indirect : Bool
  deriving Repr, DecidableEq

namespace Operand

/-- Takes the brackets off a token, and says whether there were any. -/
def unbracket (token : List Char) : Except ParseError (List Char × Bool) :=
  match token.head? == some '[', token.getLast? == some ']' with
  | true, true => .ok (token.tail.dropLast, true)
  | true, false => .error (.unclosedBracket (String.ofList token))
  | false, true => .error (.unopenedBracket (String.ofList token))
  | false, false => .ok (token, false)

/-- Reads a decimal literal; leading zeros are allowed. -/
def readLiteral (text : List Char) : Except ParseError UInt8 :=
  match Text.ofDecimal? text with
  | none => .error (.invalidLiteral (String.ofList text))
  | some n =>
    if n < 256 then .ok (UInt8.ofNat n) else .error (.literalOutOfRange (String.ofList text))

def readAtom (token : String) (inner : List Char) : Except ParseError Atom :=
  match inner with
  | [] => .error .emptyOperand
  | ['#'] => .error (.emptyLabelReference token)
  | '#' :: name => .ok (.immediate (.label (String.ofList name)))
  | inner =>
    match Register.ofName? (String.ofList inner) with
    | some r => .ok (.register r)
    | none => (readLiteral inner).map fun v => .immediate (.literal v)

def parse (token : String) : Except ParseError Operand :=
  match unbracket token.toList with
  | .error e => .error e
  | .ok (inner, indirect) => (readAtom token inner).map fun atom => ⟨atom, indirect⟩

def render (o : Operand) : String :=
  if o.indirect then "[" ++ o.atom.render ++ "]" else o.atom.render

def isRegister (o : Operand) : Bool :=
  match o.atom with
  | .register _ => true
  | .immediate _ => false

def immediate? (o : Operand) : Option Immediate :=
  match o.atom with
  | .register _ => none
  | .immediate i => some i

/-- The register field of an operand. Immediates are fetched through the program counter. -/
def field (o : Operand) : Field :=
  match o.atom with
  | .register r => ⟨r, o.indirect⟩
  | .immediate _ => ⟨.pc, o.indirect⟩

end Operand

end Breadboard
