import Breadboard.Text.Blank
import Breadboard.Text.Numeral

/-! Bytes as text. A dump has one byte on each line, in decimal or in hexadecimal. A decimal dump can
be read back, and then any white space will do between the bytes. -/

set_option autoImplicit false

namespace Breadboard.Dump

def decimal (bytes : List UInt8) : String :=
  String.join (bytes.map fun b => Text.decimal b.toNat ++ "\n")

def hex (bytes : List UInt8) : String :=
  String.join (bytes.map fun b => Text.hex 2 b.toNat ++ "\n")

/-- A word of a dump that is no byte, with its position counted from one. -/
structure ReadError where
  position : Nat
  word : String
  reason : Text.NumeralError
  deriving Repr, DecidableEq

def ReadError.message (e : ReadError) : String :=
  "value " ++ Text.decimal e.position ++ " (`" ++ e.word ++ "`) is not a byte"

/-- Reads words as bytes; the first one is at `position`. -/
def readWords (position : Nat) : List (List Char) → Except ReadError (List UInt8)
  | [] => .ok []
  | w :: ws =>
    match Text.readNumeral 255 w with
    | .error reason => .error ⟨position, String.ofList w, reason⟩
    | .ok n => (readWords (position + 1) ws).map (UInt8.ofNat n :: ·)

def read (text : String) : Except ReadError (List UInt8) := readWords 1 (Text.words text.toList)

end Breadboard.Dump
