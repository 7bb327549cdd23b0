/-! Arguments of a command line. An option that takes a value has it behind an equals sign or in the
next argument, a switch has none, and what is neither is an operand. Behind `--` there are only
operands. -/

set_option autoImplicit false

namespace Breadboard.Tool

inductive Argument
  | switch (name : String)
  | option (name value : String)
  | operand (text : String)
  deriving Repr, DecidableEq

/-- The names that a command line knows. A short name is written with one dash. -/
structure Names where
  switches : List String
  options : List String
  short : List (Char × String)

namespace Names

/-- The name and the attached value of an argument that starts with a dash. -/
def split? (names : Names) (argument : String) : Option (String × Option String) :=
  match argument.toList with
  | '-' :: '-' :: long =>
    let name := String.ofList (long.takeWhile (· != '='))
    match long.dropWhile (· != '=') with
    | [] => some (name, none)
    | _ :: value => some (name, some (String.ofList value))
  | '-' :: c :: value =>
    (names.short.find? fun s => s.1 = c).map fun s =>
      match value with
      | [] => (s.2, none)
      | '=' :: value => (s.2, some (String.ofList value))
      | c :: value => (s.2, some (String.ofList (c :: value)))
  | _ => none

def isDashed (argument : String) : Bool :=
  match argument.toList with
  | '-' :: _ :: _ => true
  | _ => false

/-- Reads the arguments, or gives `none` if one of them is unknown, lacks its value or has one that
it does not take. -/
def read (names : Names) : List String → Option (List Argument)
  | [] => some []
  | argument :: rest =>
    if argument = "--" then some (rest.map .operand)
    else if !isDashed argument then (names.read rest).map (.operand argument :: ·)
    else
      match names.split? argument with
      | none => none
      | some (name, attached) =>
        if names.switches.contains name then
          if attached.isSome then none else (names.read rest).map (.switch name :: ·)
        else if names.options.contains name then
          match attached, rest with
          | some value, rest => (names.read rest).map (.option name value :: ·)
          | none, [] => none
          | none, value :: rest =>
            if isDashed value then none else (names.read rest).map (.option name value :: ·)
        else none

end Names

namespace Argument

/-- The value of an option, or `some none` if it is not given. It is given at most once. -/
def value? (name : String) (arguments : List Argument) : Option (Option String) :=
  match arguments.filterMap fun | .option n v => if n = name then some v else none | _ => none with
  | [] => some none
  | [v] => some (some v)
  | _ => none

/-- Whether a switch is set. It is set at most once. -/
def isSet? (name : String) (arguments : List Argument) : Option Bool :=
  match arguments.count (.switch name) with
  | 0 => some false
  | 1 => some true
  | _ => none

def operands (arguments : List Argument) : List String :=
  arguments.filterMap fun | .operand text => some text | _ => none

end Argument

end Breadboard.Tool
