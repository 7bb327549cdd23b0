import Breadboard.Source.ParseError

/-! One line of assembly: an optional label, an opcode, up to two operands and an optional comment.

```text
label:  MOV A, [42]     ; comment
        ADD 42
        JC #label
```

The comment starts at the first semicolon. A colon before it makes a label of everything in front of
that colon. What is left is cut into fields: the opcode and the second operand end at white space,
the first operand also at a comma, and any run of white space, colons and commas separates. Reading a
line checks no more than this; what the fields mean is left to the operands and the operation. -/

set_option autoImplicit false

namespace Breadboard

/-- A line cut into its fields. A blank line has an empty opcode and nothing else. -/
structure Line where
  label : Option String
  opcode : String
  first : Option String
  second : Option String
  comment : Option String
  deriving Repr, DecidableEq

namespace Line

def isWhite (c : Char) : Bool := c == ' ' || c == '\t' || c == '\r' || c == '\n'

/-- The characters that are skipped between two fields. -/
def isSeparator (c : Char) : Bool := isWhite c || c == ':' || c == ','

/-- The characters that no declared label holds. -/
def isForbidden (c : Char) : Bool := isSeparator c || c == '#' || c == '['

def endsFirst (c : Char) : Bool := isWhite c || c == ','

def trimStart (cs : List Char) : List Char := cs.dropWhile isWhite

def trimEnd (cs : List Char) : List Char := (cs.reverse.dropWhile isWhite).reverse

def before (stop : Char → Bool) (cs : List Char) : List Char := cs.takeWhile fun c => !stop c

def fromFirst (stop : Char → Bool) (cs : List Char) : List Char := cs.dropWhile fun c => !stop c

/-- What follows a field and the separators behind it. -/
def afterField (stop : Char → Bool) (cs : List Char) : List Char :=
  (fromFirst stop cs).dropWhile isSeparator

def readFields (label comment : Option String) (code : List Char) : Except ParseError Line :=
  let opcode := String.ofList (before isWhite code)
  let rest := afterField isWhite code
  if rest.isEmpty then .ok ⟨label, opcode, none, none, comment⟩ else
  let first := String.ofList (before endsFirst rest)
  let rest := afterField endsFirst rest
  if rest.isEmpty then .ok ⟨label, opcode, some first, none, comment⟩ else
  let second := String.ofList (before isWhite rest)
  let rest := afterField isWhite rest
  if rest.isEmpty then .ok ⟨label, opcode, some first, some second, comment⟩ else
  .error (.trailingInput (String.ofList (before isSeparator rest)))

/-- The label that the text before a colon declares. A bare colon declares nothing. -/
def readLabel (text : List Char) : Except ParseError (Option String) :=
  let name := trimEnd (trimStart text)
  if name.any isForbidden then .error (.invalidLabel (String.ofList name))
  else if name.isEmpty then .ok none
  else .ok (some (String.ofList name))

def readCode (comment : Option String) (code : List Char) : Except ParseError Line :=
  if code.contains ':' then
    match readLabel (before (· == ':') code) with
    | .error e => .error e
    | .ok label => readFields label comment (afterField (· == ':') code)
  else readFields none comment (trimStart code)

def parse (text : String) : Except ParseError Line :=
  let code := before (· == ';') text.toList
  match fromFirst (· == ';') text.toList with
  | [] => readCode none code
  | _ :: comment => readCode (some (String.ofList comment)) code

def isEmpty (l : Line) : Bool := l.opcode.isEmpty

def renderCode (l : Line) : String :=
  l.opcode ++ l.first.elim "" (" " ++ ·) ++ l.second.elim "" (", " ++ ·)

/-- The canonical text of a line: one blank between its parts, a comma and a blank between the
operands. The operands are left out when there is no opcode. -/
def render (l : Line) : String :=
  let parts := (l.label.map (· ++ ":")).toList ++ (if l.isEmpty then [] else [l.renderCode]) ++
    (l.comment.map (";" ++ ·)).toList
  String.intercalate " " parts

end Line

end Breadboard
