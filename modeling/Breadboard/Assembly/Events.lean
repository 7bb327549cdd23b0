import Breadboard.Assembly.Assemble

/-! What an assembly logs. Each statement that is taken is logged when it is placed, with the label that
it binds. A statement that is refused is not logged here: its fault is in the answer. -/

set_option autoImplicit false

namespace Breadboard

inductive LogLevel
  | debug
  | warn
  | error
  deriving Repr, DecidableEq

inductive AssemblyEvent
  /-- A label that is bound already is bound to another address. -/
  | redefined (label : String) (previous address : UInt8)
  | bound (label : String) (address : UInt8)
  | placed (address length : Nat) (opcode : String)
  /-- The machine code is there, and has so many bytes. -/
  | coded (size : Nat)
  deriving Repr, DecidableEq

def AssemblyEvent.level : AssemblyEvent → LogLevel
  | redefined .. => .warn
  | bound .. => .debug
  | placed .. => .debug
  | coded .. => .debug

namespace Program

def bindingEvents (p : Program) : Option String → List AssemblyEvent
  | none => []
  | some name =>
    let address := UInt8.ofNat p.size
    ((p.labels.find? name).map fun previous => .redefined name previous address).toList ++
      [.bound name address]

/-- What is logged when the program takes a statement. One without bytes is logged for its label
only. -/
def placementEvents (p : Program) (placed : Placed) : List AssemblyEvent :=
  p.bindingEvents placed.statement.line.label ++
    if placed.length = 0 then []
    else [.placed placed.address placed.length placed.statement.line.opcode]

def readingEvents (p : Program) : List String → List AssemblyEvent
  | [] => []
  | text :: rest =>
    match p.addSource text with
    | .ok q => q.lines.getLast?.elim [] p.placementEvents ++ q.readingEvents rest
    | .error _ => if p.config.failFast then [] else p.readingEvents rest

end Program

end Breadboard
