import Breadboard.Assembly.ConfigReader
import Breadboard.Assembly.Events
import Breadboard.Listing
import Breadboard.Tool.Arguments
import Breadboard.Tool.Outcome

/-! The assembler as a tool. It reads the configuration, then the source, assembles it and prints the
program in the wanted format. If anything is wrong, it reports that and prints nothing.

The log goes to the standard error too, between the lines of the report. Which events it lets through
and how it writes them is not for the tool to say. -/

set_option autoImplicit false

namespace Breadboard

inductive OutputFormat
  | dec
  | hex
  | bin
  | listing
  | json
  deriving Repr, DecidableEq

namespace OutputFormat

def name : OutputFormat → String
  | dec => "dec"
  | hex => "hex"
  | bin => "bin"
  | listing => "listing"
  | json => "json"

def ofName? (s : String) : Option OutputFormat :=
  [dec, hex, bin, listing, json].find? fun f => f.name = s

end OutputFormat

def Program.print (p : Program) : OutputFormat → Except AssemblyError (List UInt8)
  | .dec => p.machineCode.map fun bytes => Utf8.encode (Dump.decimal bytes)
  | .hex => p.machineCode.map fun bytes => Utf8.encode (Dump.hex bytes)
  | .bin => p.machineCode
  | .listing => p.listing.map fun rows => Utf8.encode (Listing.text rows)
  | .json => p.listing.map fun rows => Utf8.encode ((Listing.json rows).print ++ "\n")

/-- What is logged when a program is printed. A listing is made without the machine code. -/
def Program.printEvents (p : Program) : OutputFormat → List AssemblyEvent
  | .dec | .hex | .bin => (p.machineCode.toOption.map fun bytes => .coded bytes.length).toList
  | .listing | .json => []

namespace Tool.Assembler

structure Options where
  /-- The file with the source; the standard input if there is none. -/
  input : Option String
  /-- The file to write to; the standard output if there is none. -/
  output : Option String
  format : OutputFormat
  /-- The file with the configuration. -/
  config : Option String
  allowRedefinition : Bool
  deriving Repr, DecidableEq

def names : Names where
  switches := ["allow-redefinition"]
  options := ["output", "format", "config"]
  short := [('o', "output")]

def Options.ofArguments? (arguments : List String) : Option Options := do
  let arguments ← names.read arguments
  let output ← Argument.value? "output" arguments
  let format ← Argument.value? "format" arguments
  let format ← OutputFormat.ofName? (format.getD "dec")
  let config ← Argument.value? "config" arguments
  let allowRedefinition ← Argument.isSet? "allow-redefinition" arguments
  match Argument.operands arguments with
  | [] => some ⟨none, output, format, config, allowRedefinition⟩
  | [input] => some ⟨some input, output, format, config, allowRedefinition⟩
  | _ => none

inductive Event
  | options (o : Options)
  | assembly (e : AssemblyEvent)
  | fault (e : LineError)
  deriving Repr, DecidableEq

def Event.level : Event → LogLevel
  | options _ => .debug
  | assembly e => e.level
  | fault _ => .error

/-- What goes to the standard error: a text of the run itself, or an event for the log. -/
inductive Note
  | text (s : String)
  | event (e : Event)
  deriving Repr, DecidableEq

/-- The texts that a run has from elsewhere. -/
structure Messages where
  /-- What the log writes for an event; nothing, if its filter keeps the event back. The number is the
  place of the event among the notes, since the log writes the time as well. -/
  log : Nat → Event → String
  /-- What is said against a text that is not a configuration. -/
  complaint : String → Option String

namespace Messages

/-- The log is switched off, and no complaint is made. -/
def quiet : Messages := ⟨fun _ _ => "", fun _ => none⟩

def write (messages : Messages) (place : Nat) : Note → String
  | .text s => s
  | .event e => messages.log place e

def stream (messages : Messages) (notes : List Note) : String :=
  String.join (notes.mapIdx messages.write)

end Messages

inductive Failure
  | unreadable (name : String) (reason : FileError)
  | unreadableInput (reason : FileError)
  /-- The file has a text, but it is not a configuration. -/
  | badConfig (name text : String)
  | faults (errors : List LineError)
  | unprintable (e : AssemblyError)
  deriving Repr, DecidableEq

/-- What a failed run brings to the standard error. A fault of the source is logged, right before the
line that reports it. -/
def Failure.notes (messages : Messages) : Failure → List Note
  | unreadable name reason => [.text (report ("reading " ++ name) (some reason.message))]
  | unreadableInput reason => [.text (report reason.message none)]
  | badConfig name text => [.text (report ("parsing " ++ name) (messages.complaint text))]
  | faults errors =>
    (errors.flatMap fun e => [.event (.fault e), .text (e.message ++ "\n")]) ++
      [.text (report (Text.decimal errors.length ++ " error(s), no output written") none)]
  | unprintable e => [.text (report e.message none)]

def loadConfig (o : Options) (found : Surroundings) : Except Failure Config := do
  let config ← match o.config with
    | none => .ok {}
    | some name =>
      let text ← (found.file name).text.mapError (.unreadable name)
      ((Config.parse? text).elim (.error (.badConfig name text)) .ok : Except Failure Config)
  return { config with allowRedefinition := config.allowRedefinition || o.allowRedefinition }

def loadSource (o : Options) (found : Surroundings) : Except Failure String :=
  match o.input with
  | some name => (found.file name).text.mapError (.unreadable name)
  | none => (Contents.text (some found.stdin)).mapError .unreadableInput

def result (o : Options) (found : Surroundings) : Except Failure (List UInt8) := do
  let config ← loadConfig o found
  let source ← loadSource o found
  let program ← (assemble source config).mapError .faults
  (program.print o.format).mapError .unprintable

def events (o : Options) (found : Surroundings) : List Event :=
  .options o ::
    match loadConfig o found, loadSource o found with
    | .ok config, .ok source =>
      ((Program.empty config).readingEvents (Text.lines source) ++
        match assemble source config with
        | .ok p => p.printEvents o.format
        | .error _ => []).map .assembly
    | _, _ => []

def run (o : Options) (found : Surroundings) (messages : Messages := .quiet) : Outcome :=
  let logged := (events o found).map .event
  match result o found with
  | .ok bytes => .success o.output bytes (messages.stream logged)
  | .error e => .failure (messages.stream (logged ++ e.notes messages))

end Tool.Assembler

end Breadboard
