import Breadboard.Proofs.Agreement
import Breadboard.Proofs.ImageWindow
import Breadboard.Proofs.StandardError
import Breadboard.Proofs.SweepListing
import Breadboard.Tool.Disassembler

/-! Runs of the two tools, one after the other. What the assembler prints as bytes and what it prints as
a decimal dump are the same image, and the text that the disassembler prints for it is a source of the
same dump, once the addresses are taken out. -/

set_option autoImplicit false

namespace Breadboard

namespace Tool

def Surroundings.source (found : Surroundings) (input : Option String) : Contents :=
  input.elim (some found.stdin) found.file

namespace Assembler

variable {o : Options} {found : Surroundings} {messages : Messages}

/-- A run that ends well and prints these bytes, whatever it logs. -/
def Prints (o : Options) (found : Surroundings) (bytes : List UInt8) : Prop :=
  ∀ messages : Messages, run o found messages =
    .success o.output bytes (messages.stream ((events o found).map .event))

theorem Prints.run_quiet {bytes : List UInt8} (h : Prints o found bytes) :
    run o found = .success o.output bytes := by
  rw [h .quiet, stream_events Messages.logOff_quiet.logsErrorsOnly]

theorem loadSource_eq_ok_iff {source : String} :
    loadSource o found = .ok source ↔ (found.source o.input).text = .ok source := by
  unfold loadSource Surroundings.source
  cases o.input with
  | none => exact Except.mapError_eq_ok_iff
  | some name => exact Except.mapError_eq_ok_iff

theorem result_eq_ok_iff {bytes : List UInt8} : result o found = .ok bytes ↔
    ∃ config source p, loadConfig o found = .ok config ∧ loadSource o found = .ok source ∧
      assemble source config = .ok p ∧ p.print o.format = .ok bytes := by
  unfold result
  simp only [bind, Except.bind_eq_ok_iff, Except.mapError_eq_ok_iff, exists_and_left]

theorem prints_of_result {bytes : List UInt8} (h : result o found = .ok bytes) :
    Prints o found bytes := by
  intro messages
  unfold run
  rw [h]

theorem exists_result_of_exit (h : (run o found messages).exit = 0) :
    ∃ bytes, result o found = .ok bytes := by
  unfold run at h
  cases hresult : result o found with
  | ok bytes => exact ⟨bytes, rfl⟩
  | error e =>
    rw [hresult] at h
    cases h

end Assembler

namespace Disassembler

structure Options.Plain (o : Options) (inputFormat : ImageFormat) : Prop where
  inputFormat_eq : o.inputFormat = inputFormat
  skip_eq : o.skip = 0
  length_eq : o.length = none
  showBytes_eq : o.showBytes = false
  format_eq : o.format = .text

theorem run_of_plain {o : Options} {inputFormat : ImageFormat} {found : Surroundings}
    (ho : o.Plain inputFormat) {bytes : List UInt8}
    (hload : Image.load inputFormat o.input (found.file o.input) 0 none = .ok ⟨o.input, bytes⟩) :
    run o found = .success o.output (Utf8.encode (Sweep.text (sweep bytes) false)) := by
  unfold run
  rw [ho.inputFormat_eq, ho.skip_eq, ho.length_eq, hload]
  simp [print, ho.showBytes_eq, ho.format_eq]

end Disassembler

/-- If the assembler succeeds with some source and options, then its decimal dump and its bytes are
images of the same listing. The listing without its addresses is a source of the same dump, whatever the
configuration. -/
theorem assembler_loop {o : Assembler.Options} {found : Surroundings}
    {messages : Assembler.Messages} (h : (Assembler.run o found messages).exit = 0) :
    ∃ dump code listing,
      Assembler.Prints { o with format := .dec } found dump ∧
      Assembler.Prints { o with format := .bin } found code ∧
      (∀ (d : Disassembler.Options) (found' : Surroundings), d.Plain .dump →
        found'.file d.input = some dump →
          Disassembler.run d found' = .success d.output (Utf8.encode listing)) ∧
      (∀ (d : Disassembler.Options) (found' : Surroundings), d.Plain .raw →
        found'.file d.input = some code →
          Disassembler.run d found' = .success d.output (Utf8.encode listing)) ∧
      ∀ (o' : Assembler.Options) (found' : Surroundings) (config' : Config), o'.format = .dec →
        Assembler.loadConfig o' found' = .ok config' →
        found'.source o'.input = some (Utf8.encode (Sweep.withoutAddresses listing)) →
          Assembler.Prints o' found' dump := by
  obtain ⟨_, hresult⟩ := Assembler.exists_result_of_exit h
  obtain ⟨config, source, p, hconfig, hsource, hp, _⟩ := Assembler.result_eq_ok_iff.mp hresult
  obtain ⟨code, hcode⟩ := exists_machineCode_of_assembleLines hp
  have hfits : code.length ≤ addressSpace := length_le_of_machineCode hp hcode
  refine ⟨Utf8.encode (Dump.decimal code), code, Sweep.text (sweep code) false, ?_, ?_, ?_, ?_, ?_⟩
  · apply Assembler.prints_of_result
    exact Assembler.result_eq_ok_iff.mpr
      ⟨config, source, p, hconfig, hsource, hp, Except.map_eq_ok_iff.mpr ⟨code, hcode, rfl⟩⟩
  · apply Assembler.prints_of_result
    exact Assembler.result_eq_ok_iff.mpr ⟨config, source, p, hconfig, hsource, hp, hcode⟩
  · intro d found' hd hfile
    apply Disassembler.run_of_plain hd
    rw [hfile, Image.load_decimal, Image.load_raw hfits]
  · intro d found' hd hfile
    apply Disassembler.run_of_plain hd
    rw [hfile, Image.load_raw hfits]
  · intro o' found' config' hformat hconfig' hlisting
    have hsource' : Assembler.loadSource o' found' =
        .ok (Sweep.withoutAddresses (Sweep.text (sweep code) false)) := by
      rw [Assembler.loadSource_eq_ok_iff, hlisting, Contents.text_encode]
    obtain ⟨q, hq, hsame⟩ := assemble_withoutAddresses hp hcode config'
    apply Assembler.prints_of_result
    refine Assembler.result_eq_ok_iff.mpr ⟨config', _, q, hconfig', hsource', hq, ?_⟩
    rw [hformat]
    exact Except.map_eq_ok_iff.mpr ⟨code, hsame, rfl⟩

/-- A label in an operand is a number in the listing. -/
theorem assembler_loop_jump :
    (Assembler.run ⟨none, none, .listing, none, false⟩
      ⟨fun _ => none, Utf8.encode "x: MOV A, [42]\nJMP #x"⟩).exit = 0 ∧
    ∃ listing,
      Disassembler.run ⟨"image", .dump, 0, none, false, .text, none⟩
        ⟨fun _ => some (Utf8.encode "135\n42\n238\n0\n"), []⟩ =
          .success none (Utf8.encode listing) ∧
      Disassembler.run ⟨"image", .raw, 0, none, false, .text, none⟩
        ⟨fun _ => some [135, 42, 238, 0], []⟩ = .success none (Utf8.encode listing) ∧
      Assembler.run ⟨none, none, .dec, none, false⟩
        ⟨fun _ => none, Utf8.encode (Sweep.withoutAddresses listing)⟩ =
          .success none (Utf8.encode "135\n42\n238\n0\n") := by
  have hexit : (Assembler.run ⟨none, none, .listing, none, false⟩
      ⟨fun _ => none, Utf8.encode "x: MOV A, [42]\nJMP #x"⟩).exit = 0 := by decide
  obtain ⟨dump, code, listing, hdump, hcode, hofDump, hofCode, hagain⟩ := assembler_loop hexit
  have hdump : dump = Utf8.encode "135\n42\n238\n0\n" :=
    (congrArg Outcome.stdout hdump.run_quiet).symm.trans (by decide)
  have hcode : code = [135, 42, 238, 0] :=
    (congrArg Outcome.stdout hcode.run_quiet).symm.trans (by decide)
  subst hdump hcode
  refine ⟨hexit, listing, ?_, ?_, ?_⟩
  · exact hofDump _ _ ⟨rfl, rfl, rfl, rfl, rfl⟩ rfl
  · exact hofCode _ _ ⟨rfl, rfl, rfl, rfl, rfl⟩ rfl
  · exact (hagain _ _ {} rfl rfl rfl).run_quiet

end Tool

end Breadboard
