import Breadboard.Dump
import Breadboard.Files
import Breadboard.Machine.Memory

/-! Images: the bytes that the machine sees from address zero on. An image is cut out of a file, which
holds either the bytes themselves or a decimal dump of them. -/

set_option autoImplicit false

namespace Breadboard

structure Image where
  name : String
  bytes : List UInt8
  deriving Repr, DecidableEq

inductive ImageFormat
  | raw
  | dump
  deriving Repr, DecidableEq

inductive ImageError
  | unreadable (name : String) (reason : FileError)
  | notDump (e : Dump.ReadError)
  /-- There are fewer bytes than are to be skipped. -/
  | skipTooLarge
  /-- There are fewer bytes left than are to be taken. -/
  | lengthTooLarge
  | imageTooLarge
  deriving Repr, DecidableEq

namespace ImageError

def message : ImageError → String
  | unreadable name _ => "reading " ++ name
  | notDump e => e.message
  | skipTooLarge => "--skip exceeds image size"
  | lengthTooLarge => "--len exceeds remaining image size after skip"
  | imageTooLarge => "image is larger than the 256-byte address space"

def cause? : ImageError → Option String
  | unreadable _ reason => some reason.message
  | notDump e => some e.reason.message
  | skipTooLarge => none
  | lengthTooLarge => none
  | imageTooLarge => none

end ImageError

namespace Image

def readFile (format : ImageFormat) (name : String) (file : Contents) :
    Except ImageError (List UInt8) :=
  match format with
  | .raw => file.bytes.mapError (.unreadable name)
  | .dump => (file.text.mapError (.unreadable name)).bind fun text =>
      (Dump.read text).mapError .notDump

/-- The bytes behind the first `skip` ones, or as many of these as `length` says. -/
def window (skip : Nat) (length : Option Nat) (bytes : List UInt8) :
    Except ImageError (List UInt8) :=
  if bytes.length < skip then .error .skipTooLarge
  else match length with
    | none => .ok (bytes.drop skip)
    | some n =>
      if bytes.length - skip < n then .error .lengthTooLarge else .ok ((bytes.drop skip).take n)

def ofBytes (name : String) (bytes : List UInt8) : Except ImageError Image :=
  if bytes.length ≤ addressSpace then .ok ⟨name, bytes⟩ else .error .imageTooLarge

def load (format : ImageFormat) (name : String) (file : Contents) (skip : Nat)
    (length : Option Nat) : Except ImageError Image :=
  ((readFile format name file).bind (window skip length)).bind (ofBytes name)

end Image

end Breadboard
