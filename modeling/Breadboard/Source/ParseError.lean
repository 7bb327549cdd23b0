/-! The faults of a source line that show before its operation is looked at. -/

set_option autoImplicit false

namespace Breadboard

/-- A fault of a line's cut or of one of its operands, with the text that shows it. -/
inductive ParseError
  /-- The text before the first colon is no name. -/
  | invalidLabel (name : String)
  /-- Something follows the second operand. -/
  | trailingInput (token : String)
  | unclosedBracket (token : String)
  | unopenedBracket (token : String)
  | emptyOperand
  /-- A number sign without a name. -/
  | emptyLabelReference (token : String)
  | invalidLiteral (text : String)
  | literalOutOfRange (text : String)
  deriving Repr, DecidableEq

/-- A text between back quotes, as messages cite the source. -/
def cite (s : String) : String := "`" ++ s ++ "`"

def ParseError.message : ParseError → String
  | invalidLabel name => cite name ++ " is not a valid label name"
  | trailingInput token => "unexpected " ++ cite token ++ " after the second operand"
  | unclosedBracket token => "operand " ++ cite token ++ " opens a bracket it never closes"
  | unopenedBracket token => "operand " ++ cite token ++ " closes a bracket it never opened"
  | emptyOperand => "empty operand"
  | emptyLabelReference token => "label reference " ++ cite token ++ " has no name"
  | invalidLiteral text => cite text ++ " is not a register, a #label or a decimal literal"
  | literalOutOfRange text => "literal " ++ cite text ++ " does not fit in 8 bits"

end Breadboard
