/-! The lines of a text. A line ends at a line feed, and one carriage return before the line feed
belongs to the line end; a text that ends in a line feed has no empty last line. -/

set_option autoImplicit false

namespace Breadboard.Text

/-- The lines of a text, without their ends. -/
def splitLines : List Char → List (List Char)
  | [] => []
  | '\n' :: cs => [] :: splitLines cs
  | '\r' :: '\n' :: cs => [] :: splitLines cs
  | c :: cs =>
    match splitLines cs with
    | [] => [[c]]
    | l :: ls => (c :: l) :: ls

def lines (s : String) : List String := (splitLines s.toList).map String.ofList

end Breadboard.Text
