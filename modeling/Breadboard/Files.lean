import Breadboard.Text.Utf8

/-! Files, as far as the tools can tell: a name either has a file, whose contents are bytes, or has
none. -/

set_option autoImplicit false

namespace Breadboard

inductive FileError
  | missing
  /-- The contents are not a text. -/
  | notText
  deriving Repr, DecidableEq

def FileError.message : FileError → String
  | missing => "No such file or directory (os error 2)"
  | notText => "stream did not contain valid UTF-8"

/-- The contents of a file, or `none` if there is no file. -/
abbrev Contents := Option (List UInt8)

namespace Contents

def bytes (c : Contents) : Except FileError (List UInt8) := c.elim (.error .missing) .ok

def text (c : Contents) : Except FileError String :=
  match c with
  | none => .error .missing
  | some bytes => (Utf8.decode? bytes).elim (.error .notText) .ok

theorem text_eq_ok_iff {c : Contents} {s : String} : c.text = .ok s ↔ c = some (Utf8.encode s) := by
  cases c with
  | none => simp [text]
  | some bytes =>
    rw [Option.some.injEq, ← Utf8.decode?_eq_some_iff, text]
    cases Utf8.decode? bytes <;> simp

end Contents

end Breadboard
