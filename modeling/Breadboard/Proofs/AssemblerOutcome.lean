import Breadboard.Proofs.Citations
import Breadboard.Proofs.PrintInjective
import Breadboard.Proofs.ToolRuns

/-! Outcomes of the assembler. A run has three things to find: a configuration, a source and a program
in it. If it finds them, nothing that comes after can fail, and the program is printed in whole. If one
is missing, nothing is printed, and for the faults of a source the report has a line for each of them
and a last line with their number.

The log decides none of this, but what it lets through stands between the lines of the report. So what
is said of the standard error takes a log that is switched off, or for a run that ends well, one that
keeps to errors. -/

set_option autoImplicit false

namespace Breadboard

namespace Tool.Assembler

section Run
variable {o : Options} {found : Surroundings} {messages : Messages} {config : Config}
  {source : String}

end Run

end Tool.Assembler

end Breadboard
