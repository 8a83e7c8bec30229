import Wordcode.Instruction.Decode
import Wordcode.Text.Column
import Wordcode.Text.DigitLimit

/-!
# Listings

A listing shows the words of a memory as instructions, one line each, from a start address to the
end. A word that is no instruction is shown as data, and the walk goes on with the next word. The
lines are values (`Line`), and their texts come last (`Content.text`).

A start address may be negative: addresses below 0 count from the end, so `-1` is the last word, and
a walk that starts there goes on through 0. An address before the first word has no meaning, and a
walk that starts there fails.

The text of a line is written as the walk comes to it. So where the host limits digits, a walk also
fails at the first line that shows a number with too many of them.
-/

namespace Wordcode

namespace Listing

/-- Why there is no word at an address. -/
inductive LookupError where
  /-- The address lies before the first word or behind the last. -/
  | noWord
  /-- The address lies below all that the host can count. -/
  | tooLow
deriving DecidableEq, Repr

/-- The text of the error. -/
def LookupError.message : LookupError → String
  | .noWord => "list index out of range"
  | .tooLow => "cannot fit 'int' into an index-sized integer"

/-- The least number that the host counts with: -2⁶³. -/
def leastIndex : Int := -9223372036854775808

/-- The word at an address, a negative address counting from the end. -/
def wordAt (words : Array Int) (address : Int) : Except LookupError Int :=
  if address < leastIndex then .error .tooLow
  else
    let word? :=
      if 0 ≤ address then words[address.toNat]?
      else if -address ≤ words.size then words[words.size - (-address).toNat]?
      else none
    match word? with
    | some word => .ok word
    | none => .error .noWord

/-- The parameter word at an address: 0 behind the last word, and otherwise as `wordAt`. -/
def literalAt (words : Array Int) (address : Int) : Except LookupError Int :=
  if words.size ≤ address then .ok 0 else wordAt words address

/-- The literals of an instruction with `arity` parameters at `address`. -/
def literals (words : Array Int) (address : Int) (arity : Nat) : Except LookupError (List Int) :=
  (List.range arity).mapM fun k : Nat => literalAt words (address + 1 + k)

/-- What a line of a listing shows. -/
inductive Content where
  /-- An instruction with the parameter words behind it. -/
  | instruction (instruction : Instruction) (literals : List Int)
  /-- A word that is no instruction. -/
  | data (word : Int)
deriving DecidableEq, Repr

/-- The number of words that a line covers. -/
def Content.size : Content → Nat
  | .instruction i _ => i.size
  | .data _ => 1

theorem Content.size_pos (content : Content) : 0 < content.size := by
  cases content <;> simp only [size, Instruction.size] <;> omega

/-- The numbers that a line shows besides its address. -/
def Content.numbers : Content → List Int
  | .instruction _ literals => literals
  | .data word => [word]

/-- The line content at an address. -/
def contentAt (words : Array Int) (address : Int) : Except LookupError Content := do
  let word ← wordAt words address
  match decode word with
  | .error _ => return .data word
  | .ok i => return .instruction i (← literals words address i.opcode.arity)

/-- A line of a listing. -/
structure Line where
  /-- The address of the first word that the line covers. -/
  address : Int
  /-- What stands there. -/
  content : Content
deriving DecidableEq, Repr

/-- The line at an address, if its text can be written. -/
def lineAt (limit : DigitLimit) (words : Array Int) (address : Int) :
    Except (WritingError LookupError) Line :=
  match contentAt words address with
  | .error e => .error (.own e)
  | .ok content =>
    if limit.Writes content.numbers then .ok ⟨address, content⟩
    else .error (.tooManyDigits limit.excess)

/-- The lines from `address` on, at most `count` if one is given, behind the lines in `found`. -/
def collect (limit : DigitLimit) (words : Array Int) (address : Int) (count : Option Nat)
    (found : Array Line) : Except (WritingError LookupError) (Array Line) :=
  if address < words.size then
    if count = some 0 then .ok found
    else match lineAt limit words address with
      | .error e => .error e
      | .ok line =>
        collect limit words (address + line.content.size) (count.map (· - 1)) (found.push line)
  else .ok found
termination_by (words.size - address).toNat
decreasing_by
  have := line.content.size_pos
  omega

theorem collect_of_size_le {limit : DigitLimit} {words : Array Int} {address : Int}
    {count : Option Nat} {found : Array Line} (h : words.size ≤ address) :
    collect limit words address count found = .ok found := by
  rw [collect, if_neg (by omega)]

theorem collect_zero {limit : DigitLimit} {words : Array Int} {address : Int}
    {found : Array Line} : collect limit words address (some 0) found = .ok found := by
  rw [collect]
  split <;> simp

end Listing

open Listing in
/-- The listing of the words from `start` to the end, cut after `count` lines if a count is given (a
negative count leaves no line). -/
def disassemble (limit : DigitLimit) (words : Array Int) (start : Int) (count : Option Int) :
    Except (WritingError LookupError) (Array Line) :=
  collect limit words start (count.map Int.toNat) #[]

/-! ## Texts -/

/-- The text of a number with its sign, which is `+` for zero. -/
def signedText (n : Int) : String :=
  if 0 ≤ n then "+" ++ toString n else toString n

/-- The text of an operand. -/
def operandText (mode : Mode) (literal : Int) : String :=
  match mode with
  | .position => "[" ++ toString literal ++ "]"
  | .immediate => toString literal
  | .relative => "[rb" ++ signedText literal ++ "]"

/-- The text of an instruction with the texts of its operands: the mnemonic alone, or in a column of
four followed by the operands. -/
def Instruction.textWith (instruction : Instruction) : List String → String
  | [] => instruction.opcode.mnemonic
  | operands => alignLeft 4 instruction.opcode.mnemonic ++ " " ++ ", ".intercalate operands

/-- The text of an instruction with its literals. -/
def Instruction.text (instruction : Instruction) (literals : List Int) : String :=
  instruction.textWith (List.zipWith operandText instruction.modes literals)

/-- The text of a line without its address. -/
def Listing.Content.text : Listing.Content → String
  | .instruction i literals => i.text literals
  | .data word => "DATA " ++ toString word

end Wordcode
