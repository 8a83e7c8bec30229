import Wordcode.Text.DigitLimit

/-!
# Numerals

A numeral is an optional sign and one or more decimal digits. `Numeral.read?` takes the longest
numeral off the front of a text. The number that it stands for is made from it later, and only by a
host that reads so many digits (`Numeral.toInt`).
-/

namespace Wordcode

/-- A numeral as it is found in a text. A plus says nothing. -/
structure Numeral where
  /-- Whether there is a minus. -/
  negative : Bool
  /-- The digits. -/
  digits : List Char
deriving DecidableEq, Repr

namespace Numeral

/-- The sign at the front of a text, with the text behind it. -/
def readSign : List Char → Bool × List Char
  | '-' :: rest => (true, rest)
  | '+' :: rest => (false, rest)
  | text => (false, text)

/-- The longest numeral at the front of a text, with the text behind it, or `none` if no numeral
stands there. -/
def read? (text : List Char) : Option (Numeral × List Char) :=
  let (negative, unsigned) := readSign text
  match unsigned.takeWhile Char.isDigit with
  | [] => none
  | digits => some (⟨negative, digits⟩, unsigned.dropWhile Char.isDigit)

/-- The number that a numeral stands for. -/
def value (numeral : Numeral) : Int :=
  let n : Nat := Nat.ofDigitChars 10 numeral.digits 0
  if numeral.negative then -n else n

/-- The number that a numeral stands for, made by a host with the limit. -/
def toInt (limit : DigitLimit) (numeral : Numeral) : Except TooManyDigits Int :=
  let found := numeral.digits.length
  if limit.Allows found then .ok numeral.value
  else .error { limit.excess with found := some found }

theorem length_readSign_le (text : List Char) : (readSign text).2.length ≤ text.length := by
  unfold readSign
  split <;> simp

/-- A numeral has at least one character. -/
theorem length_lt_of_read?_eq_some {text rest : List Char} {numeral : Numeral}
    (h : read? text = some (numeral, rest)) : rest.length < text.length := by
  have hsign := length_readSign_le text
  have hsplit := congrArg List.length
    (List.takeWhile_append_dropWhile (p := Char.isDigit) (l := (readSign text).2))
  simp only [read?] at h
  split at h
  · simp at h
  · rename_i digits hdigits
    simp only [Option.some.injEq, Prod.mk.injEq] at h
    have : 0 < ((readSign text).2.takeWhile Char.isDigit).length :=
      List.length_pos_iff.2 hdigits
    rw [List.length_append, h.2] at hsplit
    omega

end Numeral

end Wordcode
