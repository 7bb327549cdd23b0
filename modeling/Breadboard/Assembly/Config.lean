/-! Choices that the user of the assembler makes. Both are off by default. -/

set_option autoImplicit false

namespace Breadboard

structure Config where
  /-- Let a later definition of a label replace the earlier one. -/
  allowRedefinition : Bool := false
  /-- Stop at the first line with a fault. -/
  failFast : Bool := false
  deriving Repr, DecidableEq

end Breadboard
