import Breadboard.Assembly.Program
import Breadboard.Text.Lines

/-! Assembling a whole text. The lines are taken one by one, and a line with a fault is reported and
left out. A label that is never bound shows only when every line is in, so the unresolved labels are
reported after all other faults. -/

set_option autoImplicit false

namespace Breadboard

/-- A fault and the number of the line that it is in, counted from one. -/
structure LineError where
  line : Nat
  error : AssemblyError
  deriving Repr, DecidableEq

def LineError.message (e : LineError) : String :=
  "line " ++ Text.decimal e.line ++ ": " ++ e.error.message

/-- A text read up to some line: the program so far, the numbers of the lines that it took, and the
faults of the others. -/
structure Scan where
  program : Program
  numbers : List Nat
  errors : List LineError
  deriving Repr, DecidableEq

namespace Scan

def start (config : Config) : Scan := ⟨.empty config, [], []⟩

def accept (s : Scan) (number : Nat) (p : Program) : Scan :=
  { s with program := p, numbers := s.numbers ++ [number] }

def reject (s : Scan) (number : Nat) (e : AssemblyError) : Scan :=
  { s with errors := s.errors ++ [⟨number, e⟩] }

/-- Reads the lines from `number` on. With `failFast`, the first fault ends the reading. -/
def read (s : Scan) (number : Nat) : List String → Except (List LineError) Scan
  | [] => .ok s
  | text :: rest =>
    match s.program.addSource text with
    | .ok p => (s.accept number p).read (number + 1) rest
    | .error e =>
      let s := s.reject number e
      if s.program.config.failFast then .error s.errors else s.read (number + 1) rest

def emissionError? (p : Program) (line : Placed × Nat) : Option LineError :=
  match p.encode line.1 with
  | .ok _ => none
  | .error e => some ⟨line.2, e⟩

/-- The faults that show once every line is in. -/
def emissionErrors (s : Scan) : List LineError :=
  let lines := s.program.lines.zip s.numbers
  if s.program.config.failFast then (lines.findSome? (emissionError? s.program)).toList
  else lines.filterMap (emissionError? s.program)

def finish (s : Scan) : Except (List LineError) Program :=
  let errors := s.errors ++ s.emissionErrors
  if errors.isEmpty then .ok s.program else .error errors

end Scan

def assembleLines (lines : List String) (config : Config) : Except (List LineError) Program :=
  ((Scan.start config).read 1 lines).bind Scan.finish

def assemble (source : String) (config : Config) : Except (List LineError) Program :=
  assembleLines (Text.lines source) config

end Breadboard
