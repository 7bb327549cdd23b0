import Breadboard.Assembly.Program
import Breadboard.Dump
import Breadboard.Json.Printer
import Breadboard.Sweep

/-! Listings. The assembler lists its statements and the disassembler lists a sweep, both either as
text, with a line for each row, or as JSON. -/

set_option autoImplicit false

namespace Breadboard

/-- The bytes of a row in hexadecimal, with a blank behind each, filled up to seven columns. -/
def bytesColumn (bytes : List UInt8) : String :=
  let text := String.join (bytes.map fun b => Text.hex 2 b.toNat ++ " ")
  String.ofList (text.toList.rightpad 7 ' ')

def rowText (address : Nat) (bytes : Option (List UInt8)) (text : String) : String :=
  Text.address address ++ ": " ++ bytes.elim "" bytesColumn ++ text ++ "\n"

def bytesJson (bytes : List UInt8) : Json := .array (bytes.map fun b => .ofNat b.toNat)

namespace Listing

def text (rows : List ListingRow) : String :=
  String.join (rows.map fun r => rowText r.address (some r.bytes) r.source)

def rowJson (r : ListingRow) : Json :=
  .object [("address", .ofNat r.address), ("bytes", bytesJson r.bytes),
    ("source", .ofString r.source)]

def json (rows : List ListingRow) : Json := .array (rows.map rowJson)

end Listing

namespace Sweep

def text (rows : List SweepRow) (showBytes : Bool) : String :=
  String.join (rows.map fun r =>
    rowText r.address (if showBytes then some r.bytes else none) r.text)

/-- A row of a sweep. The family is null where nothing was decoded. -/
def rowJson (r : SweepRow) : Json :=
  .object [("address", .ofNat r.address), ("bytes", bytesJson r.bytes),
    ("family", r.family.elim .null fun f => .ofString f.name), ("text", .ofString r.text)]

def json (image : String) (size : Nat) (rows : List SweepRow) : Json :=
  .object [("image", .ofString image), ("size", .ofNat size), ("lines", .array (rows.map rowJson))]

end Sweep

end Breadboard
