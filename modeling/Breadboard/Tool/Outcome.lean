import Breadboard.Files

/-! What a tool finds when it runs and what it leaves behind. A run reads all it needs first and
writes at most once, at its end. -/

set_option autoImplicit false

namespace Breadboard.Tool

structure Surroundings where
  file : String → Contents
  stdin : List UInt8

/-- The exit code, what went to the standard streams, and the file that was written, if any. -/
@[ext]
structure Outcome where
  exit : Nat
  stdout : List UInt8
  stderr : String
  written : Option (String × List UInt8)
  deriving Repr, DecidableEq

namespace Outcome

/-- A run that ends well, with its result in the named file or else on the standard output. Only a log
can be on the standard error. -/
def success (output : Option String) (bytes : List UInt8) (stderr : String := "") : Outcome :=
  match output with
  | none => ⟨0, bytes, stderr, none⟩
  | some name => ⟨0, [], stderr, some (name, bytes)⟩

def failure (stderr : String) : Outcome := ⟨1, [], stderr, none⟩

/-- A command line that is not understood. -/
def usage (report : String) : Outcome := ⟨2, [], report, none⟩

end Outcome

def report (message : String) (cause : Option String) : String :=
  "Error: " ++ message ++ "\n" ++ cause.elim "" fun c => "\nCaused by:\n    " ++ c ++ "\n"

end Breadboard.Tool
