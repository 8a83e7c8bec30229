import Wordcode.Text.Blank
import Wordcode.Text.Digit
import Wordcode.Text.DigitLimit

/-!
# Integers as people write them

An integer is an optional sign and decimal digits of any script, with white space around it. A
single underscore may stand between two digits. Where the host limits digits, a text with more of
them stands for no integer.

White space here is Unicode's, so of the blanks it lacks the separators of the control characters.
-/

namespace Wordcode

/-- Whether a character is white space. -/
def isWhiteSpace (c : Char) : Bool :=
  isBlank c && !(0x1c ≤ c.toNat && c.toNat ≤ 0x1f)

/-- The number that digits stand for, behind digits that stand for `value`. The flag tells whether a
digit stands right before them. -/
def digitsValue? (afterDigit : Bool) (value : Nat) : List Char → Option Nat
  | [] => if afterDigit then some value else none
  | c :: text =>
    if c = '_' then
      if afterDigit then digitsValue? false value text else none
    else match digitValue? c with
      | none => none
      | some digit => digitsValue? true (10 * value + digit) text

/-- The number of digits in a text. -/
def countDigits (text : List Char) : Nat := text.countP fun c => (digitValue? c).isSome

/-- The integer that a text stands for. -/
def readInteger? (limit : DigitLimit) (text : String) : Option Int :=
  let trimmed := (text.toList.dropWhile isWhiteSpace).reverse.dropWhile isWhiteSpace |>.reverse
  if limit.Allows (countDigits trimmed) then
    match trimmed with
    | '-' :: digits => (digitsValue? false 0 digits).map fun n => -(n : Int)
    | '+' :: digits => (digitsValue? false 0 digits).map fun n => (n : Int)
    | digits => (digitsValue? false 0 digits).map fun n => (n : Int)
  else none

example : readInteger? none " -1_000\n" = some (-1000) := by decide +kernel

example : readInteger? none "1__0" = none := by decide +kernel

end Wordcode
