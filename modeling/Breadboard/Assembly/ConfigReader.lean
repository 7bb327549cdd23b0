import Breadboard.Assembly.Config
import Breadboard.Json.Reader

/-! Configurations as JSON. A configuration is an object, whose members are the choices by name, or an
array of the choices in order. Choices that are left out are off, and members of other names are
passed over, but no choice may be made twice. -/

set_option autoImplicit false

namespace Breadboard.Config

def redefinitionKey : String := "allow_label_redefinition"

def failFastKey : String := "fail_fast"

/-- The choice that the members with one name make. -/
def choice? (name : String) (members : List (String × Json)) : Option Bool :=
  match members.filter fun m => m.1 = name with
  | [] => some false
  | [(_, .bool b)] => some b
  | _ => none

def named? (members : List (String × Json)) : Option (List (String × Json)) :=
  members.mapM fun m => (Json.unescape? m.1.toList).map fun name => (String.ofList name, m.2)

def ofJson? : Json → Option Config
  | .object members => do
    let members ← named? members
    let allowRedefinition ← choice? redefinitionKey members
    let failFast ← choice? failFastKey members
    pure ⟨allowRedefinition, failFast⟩
  | .array [] => some ⟨false, false⟩
  | .array [.bool a] => some ⟨a, false⟩
  | .array [.bool a, .bool f] => some ⟨a, f⟩
  | _ => none

def parse? (text : String) : Option Config := (Json.parse? text).bind ofJson?

end Breadboard.Config
