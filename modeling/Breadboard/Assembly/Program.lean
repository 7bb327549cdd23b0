import Breadboard.Assembly.Config
import Breadboard.Assembly.LabelTable
import Breadboard.Machine.Memory
import Breadboard.Source.Statement

/-! Programs. A program takes its statements one after the other. Each goes to the next free address
and binds its label there; a statement with a fault leaves the program as it was. Statements are
encoded when the machine code is asked for, with the labels as they are then, so that a statement may
refer to a label of a later one. -/

set_option autoImplicit false

namespace Breadboard

/-- Why a program does not take a statement, or has no machine code. -/
inductive AssemblyError
  | parse (e : ParseError)
  | encode (e : EncodeError)
  /-- A label that is already bound, and the address that it is bound to. -/
  | redefinedLabel (label : String) (address : UInt8)
  /-- A statement of the given length, or its label, does not fit in at this address. -/
  | addressOverflow (address length : Nat)
  /-- The statement at this address refers to a label that is not bound. -/
  | unresolvedLabel (label : String) (address : Nat)
  deriving Repr, DecidableEq

def AssemblyError.message : AssemblyError → String
  | parse e => e.message
  | encode e => e.message
  | redefinedLabel label address =>
    "label " ++ cite label ++ " already defined at " ++ Text.address address.toNat
  | addressOverflow address length =>
    Text.decimal length ++ " byte(s) at 0x" ++ Text.hex 3 address ++
      " do not fit in the 256-byte address space"
  | unresolvedLabel label address =>
    "undefined label " ++ cite label ++ " referenced at " ++ Text.address address

structure Placed where
  address : Nat
  length : Nat
  statement : Statement
  deriving Repr, DecidableEq

structure ListingRow where
  address : Nat
  bytes : List UInt8
  source : String
  deriving Repr, DecidableEq

/-- The statements taken so far, in order of their addresses, the labels that they bind, and the
number of bytes that they take, which is the next free address. -/
structure Program where
  config : Config
  lines : List Placed
  labels : LabelTable
  size : Nat
  deriving Repr, DecidableEq

namespace Program

def empty (config : Config) : Program := ⟨config, [], .empty, 0⟩

def isEmpty (p : Program) : Bool := p.size == 0

/-- The label table after binding a label at the next free address, for a statement of `length`
bytes. An address above 255 cannot be bound, nor can a name that is bound already, unless the
configuration allows for that. -/
def bindLabel (p : Program) (length : Nat) : Option String → Except AssemblyError LabelTable
  | none => .ok p.labels
  | some name =>
    if p.size < addressSpace then
      match p.labels.find? name with
      | none => .ok (p.labels.insert name (UInt8.ofNat p.size))
      | some previous =>
        if p.config.allowRedefinition then .ok (p.labels.insert name (UInt8.ofNat p.size))
        else .error (.redefinedLabel name previous)
    else .error (.addressOverflow p.size length)

def place (p : Program) (s : Statement) (length : Nat) : Except AssemblyError Program :=
  if p.size + length ≤ addressSpace then
    match p.bindLabel length s.line.label with
    | .error e => .error e
    | .ok labels => .ok ⟨p.config, p.lines ++ [⟨p.size, length, s⟩], labels, p.size + length⟩
  else .error (.addressOverflow p.size length)

def add (p : Program) (line : Line) : Except AssemblyError Program :=
  match Statement.ofLine line with
  | .error e => .error (.parse e)
  | .ok s =>
    match s.length with
    | .error e => .error (.encode e)
    | .ok length => p.place s length

def addSource (p : Program) (text : String) : Except AssemblyError Program :=
  match Line.parse text with
  | .error e => .error (.parse e)
  | .ok line => p.add line

/-- The bytes of a statement of the program, with the labels as they are now. -/
def encode (p : Program) (placed : Placed) : Except AssemblyError (List UInt8) :=
  match placed.statement.encode p.labels.find? with
  | .ok bytes => .ok bytes
  | .error (.undefinedLabel name) => .error (.unresolvedLabel name placed.address)
  | .error e => .error (.encode e)

def machineCode (p : Program) : Except AssemblyError (List UInt8) :=
  (p.lines.mapM p.encode).map List.flatten

def listing (p : Program) : Except AssemblyError (List ListingRow) :=
  p.lines.mapM fun placed =>
    (p.encode placed).map fun bytes => ⟨placed.address, bytes, placed.statement.line.render⟩

end Program

end Breadboard
