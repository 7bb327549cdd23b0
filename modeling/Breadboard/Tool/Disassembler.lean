import Breadboard.Image
import Breadboard.Listing
import Breadboard.Tool.Arguments
import Breadboard.Tool.Outcome

/-! The disassembler as a tool. It loads an image and prints its sweep, as text or as a report in
JSON. -/

set_option autoImplicit false

namespace Breadboard

def ImageFormat.name : ImageFormat → String
  | raw => "raw"
  | dump => "dec"

def ImageFormat.ofName? (s : String) : Option ImageFormat :=
  [raw, dump].find? fun f => f.name = s

namespace Tool.Disassembler

inductive ReportFormat
  | text
  | json
  deriving Repr, DecidableEq

def ReportFormat.name : ReportFormat → String
  | text => "text"
  | json => "json"

def ReportFormat.ofName? (s : String) : Option ReportFormat :=
  [text, json].find? fun f => f.name = s

structure Options where
  input : String
  inputFormat : ImageFormat
  skip : Nat
  length : Option Nat
  /-- Show the bytes of each row, in a report that is text. -/
  showBytes : Bool
  format : ReportFormat
  /-- The file to write to; the standard output if there is none. -/
  output : Option String
  deriving Repr, DecidableEq

def names : Names where
  switches := ["show-bytes"]
  options := ["input-format", "skip", "len", "format", "out"]
  short := []

/-- A number of bytes, which fits into 64 bits. -/
def size? (s : String) : Option Nat := (Text.readNumeral (UInt64.size - 1) s.toList).toOption

def Options.ofArguments? (arguments : List String) : Option Options := do
  let arguments ← names.read arguments
  let inputFormat ← Argument.value? "input-format" arguments
  let inputFormat ← ImageFormat.ofName? (inputFormat.getD "raw")
  let skip ← Argument.value? "skip" arguments
  let skip ← size? (skip.getD "0")
  let length ← Argument.value? "len" arguments
  let length ← length.elim (some none) fun s => (size? s).map some
  let showBytes ← Argument.isSet? "show-bytes" arguments
  let format ← Argument.value? "format" arguments
  let format ← ReportFormat.ofName? (format.getD "text")
  let output ← Argument.value? "out" arguments
  match Argument.operands arguments with
  | [input] => some ⟨input, inputFormat, skip, length, showBytes, format, output⟩
  | _ => none

def print (o : Options) (image : Image) : String :=
  let rows := sweep image.bytes
  match o.format with
  | .text => Sweep.text rows o.showBytes
  | .json => (Sweep.json image.name image.bytes.length rows).print ++ "\n"

def run (o : Options) (found : Surroundings) : Outcome :=
  match Image.load o.inputFormat o.input (found.file o.input) o.skip o.length with
  | .ok image => .success o.output (Utf8.encode (print o image))
  | .error e => .failure (report e.message e.cause?)

end Tool.Disassembler

end Breadboard
