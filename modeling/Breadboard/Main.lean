import Breadboard.Tool.Assembler
import Breadboard.Tool.Disassembler

/-! The command line. The first argument chooses the tool, and the others are for the tool. All that
touches the world is here: reading the files that the options name, and leaving behind what the tool
says. The log is switched off. -/

set_option autoImplicit false

namespace Breadboard.Tool

/-- The contents of a file, or `none` if there is no file. A file that is there but cannot be read ends
the run. -/
def readFile (name : String) : ExceptT Outcome IO Contents := ExceptT.mk do
  try
    let bytes ← IO.FS.readBinFile name
    return .ok (some bytes.toList)
  catch
    | .noFileOrDirectory .. => return .ok none
    | e => return .error (.failure (report ("reading " ++ name) (some (toString e))))

def readFiles (names : List String) : ExceptT Outcome IO (String → Contents) := do
  let files ← names.mapM fun name => do return (name, ← readFile name)
  return fun name => (files.find? fun f => f.1 = name).bind Prod.snd

partial def readStream (stream : IO.FS.Stream) (found : ByteArray) : IO ByteArray := do
  let bytes ← stream.read 65536
  if bytes.isEmpty then return found else readStream stream (found ++ bytes)

def Outcome.leave (o : Outcome) : IO UInt32 := do
  (← IO.getStderr).putStr o.stderr
  let stdout ← IO.getStdout
  stdout.write ⟨o.stdout.toArray⟩
  stdout.flush
  match o.written with
  | none => return UInt32.ofNat o.exit
  | some (name, bytes) =>
    try
      IO.FS.writeBinFile name ⟨bytes.toArray⟩
      return UInt32.ofNat o.exit
    catch e =>
      (← IO.getStderr).putStr (report ("writing " ++ name) (some (toString e)))
      return 1

def assemblerUsage : Outcome :=
  .usage ("usage: asm [--format=dec|hex|bin|listing|json] [--config=FILE] [--allow-redefinition] " ++
    "[-o FILE] [ASMFILE]\n")

def disassemblerUsage : Outcome :=
  .usage ("usage: disasm [--input-format=raw|dec] [--skip=N] [--len=N] [--show-bytes] " ++
    "[--format=text|json] [--out=FILE] IMAGE\n")

def runAssembler (arguments : List String) : ExceptT Outcome IO Outcome := do
  match Assembler.Options.ofArguments? arguments with
  | none => return assemblerUsage
  | some o =>
    let config ← readFiles o.config.toList
    -- a run that has no configuration ends before it looks for its source
    if (Assembler.loadConfig o ⟨config, []⟩).toOption.isNone then
      return Assembler.run o ⟨config, []⟩
    let source ← readFiles o.input.toList
    let stdin ← if o.input.isSome then pure .empty else readStream (← IO.getStdin) .empty
    return Assembler.run o ⟨fun name => (config name).or (source name), stdin.toList⟩

def runDisassembler (arguments : List String) : ExceptT Outcome IO Outcome := do
  match Disassembler.Options.ofArguments? arguments with
  | none => return disassemblerUsage
  | some o => return Disassembler.run o ⟨← readFiles [o.input], []⟩

def outcome : List String → ExceptT Outcome IO Outcome
  | "asm" :: rest => runAssembler rest
  | "disasm" :: rest => runDisassembler rest
  | _ => return .usage "usage: asm ARGUMENTS, or disasm ARGUMENTS\n"

def dispatch (arguments : List String) : IO UInt32 := do
  match ← (outcome arguments).run with
  | .ok o => o.leave
  | .error o => o.leave

end Breadboard.Tool

def main (arguments : List String) : IO UInt32 := Breadboard.Tool.dispatch arguments
