import Breadboard.Text.Numeral
import Breadboard.Text.Lines
import Breadboard.Text.Blank
import Breadboard.Text.Utf8
import Breadboard.Machine.Instr
import Breadboard.Source.Statement
import Breadboard.Assembly.LabelTable
import Breadboard.Assembly.Assemble
import Breadboard.Sweep
import Breadboard.Json.Printer
import Breadboard.Assembly.ConfigReader
import Breadboard.Listing
import Breadboard.Image
import Breadboard.Tool.Assembler
import Breadboard.Tool.Disassembler
import Breadboard.Main
import Breadboard.Proofs.Reassembly
import Breadboard.Proofs.Correspondence
import Breadboard.Proofs.ListingSource
import Breadboard.Proofs.Answers
import Breadboard.Proofs.Resolving
import Breadboard.Proofs.Relocation
import Breadboard.Proofs.LineEnds
import Breadboard.Proofs.LineEdit
import Breadboard.Proofs.Substitution
import Breadboard.Proofs.Growth
import Breadboard.Proofs.References
import Breadboard.Proofs.Refusals
import Breadboard.Proofs.Agreement
import Breadboard.Proofs.BlankLines
import Breadboard.Proofs.LineCode
import Breadboard.Proofs.Redefinition
import Breadboard.Proofs.DumpReading
import Breadboard.Proofs.Noninterference
import Breadboard.Proofs.SweepListing
import Breadboard.Proofs.ToolRuns
import Breadboard.Proofs.SweepAppend
import Breadboard.Proofs.SweepInjective
import Breadboard.Proofs.OperandGrammar
import Breadboard.Proofs.PrintInjective
import Breadboard.Proofs.Citations
import Breadboard.Proofs.AssemblerOutcome
