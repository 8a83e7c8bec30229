/-!
# UTF-8

Reading bytes as UTF-8. A character is one lead byte and up to three continuation bytes, each within
a range that depends on what stands before it. Bytes that are no UTF-8 are refused with the position
of the first wrong sequence and the number of its bytes that belong together.
-/

namespace Wordcode

namespace Utf8

/-- What is wrong with a sequence of bytes. -/
inductive Flaw where
  /-- No character begins with this byte. -/
  | start
  /-- The character cannot go on with the byte that follows. -/
  | continuation
  /-- The bytes end within a character. -/
  | ending
deriving DecidableEq, Repr

/-- The text of a flaw. -/
def Flaw.message : Flaw → String
  | .start => "invalid start byte"
  | .continuation => "invalid continuation byte"
  | .ending => "unexpected end of data"

/-- Bytes that are no UTF-8. -/
structure DecodeError where
  /-- The position of the wrong sequence. -/
  position : Nat
  /-- Its first byte. -/
  byte : UInt8
  /-- The number of its bytes. -/
  length : Nat
  /-- What is wrong with it. -/
  flaw : Flaw
deriving DecidableEq, Repr

/-- The text of the error. -/
def DecodeError.message (e : DecodeError) : String :=
  let hex := String.ofList ((Nat.toDigits 16 e.byte.toNat).leftpad 2 '0')
  let first := e.position
  let last := e.position + e.length - 1
  let sequence :=
    if e.length = 1 then s!"byte 0x{hex} in position {first}"
    else s!"bytes in position {first}-{last}"
  "'utf-8' codec can't decode " ++ sequence ++ ": " ++ e.flaw.message

/-- The bits of a lead byte that belong to the character, and the ranges of the continuation bytes,
or `none` if no character begins with the byte. -/
def lead? (byte : Nat) : Option (Nat × List (Nat × Nat)) :=
  if byte < 0x80 then some (byte, [])
  else if byte < 0xc2 then none
  else if byte < 0xe0 then some (byte - 0xc0, [(0x80, 0xbf)])
  else if byte < 0xf0 then
    let first := if byte = 0xe0 then 0xa0 else 0x80
    let last := if byte = 0xed then 0x9f else 0xbf
    some (byte - 0xe0, [(first, last), (0x80, 0xbf)])
  else if byte < 0xf5 then
    let first := if byte = 0xf0 then 0x90 else 0x80
    let last := if byte = 0xf4 then 0x8f else 0xbf
    some (byte - 0xf0, [(first, last), (0x80, 0xbf), (0x80, 0xbf)])
  else none

/-- Reads continuation bytes within the given ranges behind `length` bytes of a character whose bits
so far form `value`: the character's number and the bytes behind it, or the flaw with the number of
bytes before it. -/
def continuations (value length : Nat) :
    List (Nat × Nat) → List UInt8 → Except (Nat × Flaw) (Nat × List UInt8)
  | [], bytes => .ok (value, bytes)
  | _ :: _, [] => .error (length, .ending)
  | (first, last) :: ranges, byte :: bytes =>
    if first ≤ byte.toNat ∧ byte.toNat ≤ last then
      continuations (64 * value + (byte.toNat - 0x80)) (length + 1) ranges bytes
    else .error (length, .continuation)

theorem length_le_of_continuations_eq_ok {ranges : List (Nat × Nat)} {bytes rest : List UInt8}
    {value length n : Nat} (h : continuations value length ranges bytes = .ok (n, rest)) :
    rest.length ≤ bytes.length := by
  fun_induction continuations value length ranges bytes with
  | case1 => cases h; simp
  | case2 => cases h
  | case3 _ _ _ _ _ _ _ _ ih => exact Nat.le_succ_of_le (ih h)
  | case4 => cases h

/-- The characters of the bytes from `position` on, behind those in `found`, which are in reverse
order. -/
def decodeFrom (position : Nat) (bytes : List UInt8) (found : List Char) :
    Except DecodeError (List Char) :=
  match bytes with
  | [] => .ok found.reverse
  | byte :: bytes =>
    match lead? byte.toNat with
    | none => .error ⟨position, byte, 1, .start⟩
    | some (value, ranges) =>
      match _h : continuations value 1 ranges bytes with
      | .error (length, flaw) => .error ⟨position, byte, length, flaw⟩
      | .ok (n, rest) => decodeFrom (position + 1 + ranges.length) rest (Char.ofNat n :: found)
termination_by bytes.length
decreasing_by
  have := length_le_of_continuations_eq_ok _h
  simp only [List.length_cons]
  omega

/-- The characters that bytes stand for. -/
def decode (bytes : List UInt8) : Except DecodeError (List Char) := decodeFrom 0 bytes []

end Utf8

/-- A text in which every line ends with a newline alone, behind `found` in reverse order: a
carriage return counts as a newline, and so do a carriage return and the newline behind it. -/
def unifyNewlinesFrom (found : List Char) : List Char → List Char
  | [] => found.reverse
  | '\r' :: '\n' :: text => unifyNewlinesFrom ('\n' :: found) text
  | '\r' :: text => unifyNewlinesFrom ('\n' :: found) text
  | c :: text => unifyNewlinesFrom (c :: found) text

/-- A text in which every line ends with a newline alone. -/
def unifyNewlines (text : List Char) : List Char := unifyNewlinesFrom [] text

end Wordcode
