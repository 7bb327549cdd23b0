import Breadboard.Json.Value

/-! JSON values as indented text: two blanks for each level, every item and every member on a line of
its own, and nothing inside the brackets of an empty array or object. -/

set_option autoImplicit false

namespace Breadboard.Json

/-- A line end and the indentation of the line after it. -/
def newline (depth : Nat) : String := "\n" ++ String.ofList (List.replicate (2 * depth) ' ')

def quote (escaped : String) : String := "\"" ++ escaped ++ "\""

mutual

def printAt (depth : Nat) : Json → String
  | null => "null"
  | bool b => if b then "true" else "false"
  | number numeral => numeral
  | string escaped => quote escaped
  | array [] => "[]"
  | array (item :: items) =>
    "[" ++ newline (depth + 1) ++ printAt (depth + 1) item ++ printItems (depth + 1) items ++
      newline depth ++ "]"
  | object [] => "\x7b\x7d"
  | object ((key, value) :: members) =>
    "\x7b" ++ newline (depth + 1) ++ quote key ++ ": " ++ printAt (depth + 1) value ++
      printMembers (depth + 1) members ++ newline depth ++ "\x7d"

/-- The items of an array behind its first one. -/
def printItems (depth : Nat) : List Json → String
  | [] => ""
  | item :: items => "," ++ newline depth ++ printAt depth item ++ printItems depth items

/-- The members of an object behind its first one. -/
def printMembers (depth : Nat) : List (String × Json) → String
  | [] => ""
  | (key, value) :: members =>
    "," ++ newline depth ++ quote key ++ ": " ++ printAt depth value ++ printMembers depth members

end

def print (j : Json) : String := printAt 0 j

end Breadboard.Json
