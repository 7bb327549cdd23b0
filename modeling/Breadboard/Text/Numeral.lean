/-! Numerals. Numbers are written in decimal, or in lower-case hexadecimal filled with zeros up to a
least width. Reading a bounded numeral goes from left to right and reports the first fault, so a bad
digit behind an overflow is never reached. -/

set_option autoImplicit false

namespace Breadboard.Text

def decimal (n : Nat) : String := String.ofList (Nat.toDigits 10 n)

/-- The hexadecimal numeral of `n`, with leading zeros up to `width` digits. -/
def hex (width n : Nat) : String := String.ofList ((Nat.toDigits 16 n).leftpad width '0')

/-- An address as it is printed: `0x` and at least two hexadecimal digits. -/
def address (n : Nat) : String := "0x" ++ hex 2 n

/-- The value of a non-empty run of decimal digits; leading zeros do not matter. -/
def ofDecimal? (cs : List Char) : Option Nat :=
  if !cs.isEmpty && cs.all Char.isDigit then some (Nat.ofDigitChars 10 cs 0) else none

inductive NumeralError
  | empty
  | invalidDigit
  | overflow
  deriving Repr, DecidableEq

def NumeralError.message : NumeralError → String
  | empty => "cannot parse integer from empty string"
  | invalidDigit => "invalid digit found in string"
  | overflow => "number too large to fit in target type"

/-- Extends `value` by the digits that follow, as long as it stays within `bound`. -/
def extendNumeral (bound value : Nat) : List Char → Except NumeralError Nat
  | [] => .ok value
  | c :: cs =>
    if c.isDigit then
      let next := 10 * value + (c.toNat - '0'.toNat)
      if next ≤ bound then extendNumeral bound next cs else .error .overflow
    else .error .invalidDigit

/-- Drops one plus sign, unless it stands alone. -/
def dropPlus : List Char → List Char
  | '+' :: c :: cs => c :: cs
  | cs => cs

/-- Reads a numeral of at most `bound`, with an optional plus sign. -/
def readNumeral (bound : Nat) (cs : List Char) : Except NumeralError Nat :=
  if cs.isEmpty then .error .empty else extendNumeral bound 0 (dropPlus cs)

end Breadboard.Text
