import Breadboard.Json.Value

/-! Reading JSON. A text is cut into tokens first: the six marks of the grammar, strings, and runs of
letters, digits and number signs, each of which has to be a number or one of the three words. The
tokens are then read from left to right, with the arrays and objects that are still open on a stack. -/

set_option autoImplicit false

namespace Breadboard.Json

inductive Token
  /-- A bracket, a brace, a colon or a comma. -/
  | mark (c : Char)
  /-- A value without parts. -/
  | scalar (j : Json)
  deriving Repr

def isSpace (c : Char) : Bool := c == ' ' || c == '\t' || c == '\r' || c == '\n'

def isMark (c : Char) : Bool := "[]\x7b\x7d:,".contains c

/-- The characters of numbers and words. -/
def isWordChar (c : Char) : Bool := c.isAlphanum || c == '+' || c == '-' || c == '.'

def dropDigits? (cs : List Char) : Option (List Char) :=
  if cs.head?.any Char.isDigit then some (cs.dropWhile Char.isDigit) else none

/-- Drops the digits of an integer, which has no leading zeros. -/
def dropInteger? : List Char → Option (List Char)
  | '0' :: cs => some cs
  | cs => dropDigits? cs

def dropSign : List Char → List Char
  | '+' :: cs => cs
  | '-' :: cs => cs
  | cs => cs

def dropFraction? : List Char → Option (List Char)
  | '.' :: cs => dropDigits? cs
  | cs => some cs

def dropExponent? : List Char → Option (List Char)
  | 'e' :: cs => dropDigits? (dropSign cs)
  | 'E' :: cs => dropDigits? (dropSign cs)
  | cs => some cs

def dropMinus : List Char → List Char
  | '-' :: cs => cs
  | cs => cs

/-- An integer, with a fraction and an exponent as may be. -/
def isNumber (cs : List Char) : Bool :=
  ((dropInteger? (dropMinus cs)).bind dropFraction?).bind dropExponent? == some []

def ofWord? (word : List Char) : Option Json :=
  if word = ['n', 'u', 'l', 'l'] then some null
  else if word = ['t', 'r', 'u', 'e'] then some (bool true)
  else if word = ['f', 'a', 'l', 's', 'e'] then some (bool false)
  else if isNumber word then some (number (String.ofList word))
  else none

/-- Cuts a text behind an opening quote into the string and what follows the closing quote. -/
def scanString : List Char → Option (List Char × List Char)
  | [] => none
  | '"' :: rest => some ([], rest)
  | '\\' :: 'u' :: a :: b :: c :: d :: rest =>
    if (codeUnit? a b c d).isSome then
      (scanString rest).map fun r => ('\\' :: 'u' :: a :: b :: c :: d :: r.1, r.2)
    else none
  | '\\' :: c :: rest =>
    if (simpleEscape? c).isSome then (scanString rest).map fun r => ('\\' :: c :: r.1, r.2) else none
  | c :: rest =>
    if c.toNat < 0x20 || c == '\\' then none else (scanString rest).map fun r => (c :: r.1, r.2)

theorem length_of_scanString {cs raw rest : List Char} (h : scanString cs = some (raw, rest)) :
    rest.length < cs.length := by
  fun_induction scanString cs generalizing raw rest with
  | case1 => cases h
  | case2 => cases h; simp
  | case3 a b c d cs _ ih =>
    obtain ⟨r, hr, he⟩ := Option.map_eq_some_iff.1 h
    cases he
    have := ih hr
    simp only [List.length_cons]
    omega
  | case4 => cases h
  | case5 c cs _ _ ih =>
    obtain ⟨r, hr, he⟩ := Option.map_eq_some_iff.1 h
    cases he
    have := ih hr
    simp only [List.length_cons]
    omega
  | case6 => cases h
  | case7 => cases h
  | case8 c cs _ _ _ _ ih =>
    obtain ⟨r, hr, he⟩ := Option.map_eq_some_iff.1 h
    cases he
    have := ih hr
    simp only [List.length_cons]
    omega

theorem length_dropWhile_le (p : Char → Bool) (cs : List Char) :
    (cs.dropWhile p).length ≤ cs.length :=
  (List.dropWhile_suffix p).length_le

def tokens? (text : List Char) : Option (List Token) :=
  match text with
  | [] => some []
  | c :: cs =>
    if isSpace c then tokens? cs
    else if isMark c then (tokens? cs).map (.mark c :: ·)
    else if c == '"' then
      match h : scanString cs with
      | none => none
      | some (raw, rest) =>
        have := length_of_scanString h
        (tokens? rest).map (.scalar (string (String.ofList raw)) :: ·)
    else
      have := length_dropWhile_le isWordChar cs
      (ofWord? (c :: cs.takeWhile isWordChar)).bind fun j =>
        (tokens? (cs.dropWhile isWordChar)).map (.scalar j :: ·)
termination_by text.length

/-- An array or object that is still open. What it holds so far is kept last first; an object waits
for the value of a member whose name is read. -/
inductive Frame
  | array (items : List Json)
  | object (members : List (String × Json)) (name : String)
  deriving Repr

mutual

def readValue (stack : List Frame) : List Token → Option Json
  | .scalar j :: ts => readRest stack j ts
  | .mark '[' :: .mark ']' :: ts => readRest stack (array []) ts
  | .mark '[' :: ts => readValue (.array [] :: stack) ts
  | .mark '\x7b' :: .mark '\x7d' :: ts => readRest stack (object []) ts
  | .mark '\x7b' :: ts => readMember stack [] ts
  | _ => none

def readMember (stack : List Frame) (members : List (String × Json)) : List Token → Option Json
  | .scalar (string name) :: .mark ':' :: ts => readValue (.object members name :: stack) ts
  | _ => none

/-- Reads tokens behind the value `j`. -/
def readRest (stack : List Frame) (j : Json) : List Token → Option Json
  | [] => if stack.isEmpty then some j else none
  | .mark ',' :: ts =>
    match stack with
    | .array items :: stack => readValue (.array (j :: items) :: stack) ts
    | .object members name :: stack => readMember stack ((name, j) :: members) ts
    | [] => none
  | .mark ']' :: ts =>
    match stack with
    | .array items :: stack => readRest stack (array (j :: items).reverse) ts
    | _ => none
  | .mark '\x7d' :: ts =>
    match stack with
    | .object members name :: stack => readRest stack (object ((name, j) :: members).reverse) ts
    | _ => none
  | _ => none

end

/-- Reads a text that holds one value and nothing else but white space. -/
def parse? (text : String) : Option Json := (tokens? text.toList).bind (readValue [])

end Breadboard.Json
