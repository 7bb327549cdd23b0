/-! The memory of the machine. An address is one byte. -/

set_option autoImplicit false

namespace Breadboard

def addressSpace : Nat := 256

end Breadboard
