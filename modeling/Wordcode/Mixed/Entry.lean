import Wordcode.Instruction.Basic
import Wordcode.Listing

/-!
# Entries

An entry is what a user enters for a word: a number, or the empty list where a number was left out.
The empty list is carried along like a number, and takes part in operations as lists do:

* it differs from every number, so it is not zero;
* two of them add up to an empty list, and repeating one any number of times yields an empty list;
* none of them is less than another.

Whatever else would need a number in its place fails, each operation with a text of its own.
-/

namespace Wordcode

/-- A word that need not be a number. -/
inductive Entry where
  | number (value : Int)
  | emptyList
deriving DecidableEq, Repr, Inhabited

/-- What an empty list cannot be used for. -/
inductive EntryError where
  /-- To be less than a number. An address and an instruction word are compared with 0 first. -/
  | listBelowNumber
  /-- To be greater than a number. -/
  | numberBelowList
  /-- To have a number appended. -/
  | listPlusNumber
  /-- To be added to a number. -/
  | numberPlusList
  /-- To be added to the base register. -/
  | baseOffset
  /-- To take up the base register as its next elements. -/
  | listExtension
  /-- To count the repetitions of a list. -/
  | listTimesList
  /-- To be repeated more often than the host can count. -/
  | repetitionLimit
  /-- To be shown with a sign. -/
  | signedText
deriving DecidableEq, Repr

/-- The text of the error. -/
def EntryError.message : EntryError → String
  | .listBelowNumber => "'<' not supported between instances of 'list' and 'int'"
  | .numberBelowList => "'<' not supported between instances of 'int' and 'list'"
  | .listPlusNumber => "can only concatenate list (not \"int\") to list"
  | .numberPlusList => "unsupported operand type(s) for +: 'int' and 'list'"
  | .baseOffset => "unsupported operand type(s) for +=: 'int' and 'list'"
  | .listExtension => "'int' object is not iterable"
  | .listTimesList => "can't multiply sequence by non-int of type 'list'"
  | .repetitionLimit => "cannot fit 'int' into an index-sized integer"
  | .signedText => "unsupported format string passed to list.__format__"

namespace Entry

/-- The number that an entry stands for where there are numbers only: 0 for the empty list. -/
def toInt : Entry → Int
  | .number n => n
  | .emptyList => 0

/-- The text of an entry. -/
def text : Entry → String
  | .number n => toString n
  | .emptyList => "[]"

/-- The number of an entry that has to be one, or else the given error. -/
def expectNumber (error : EntryError) : Entry → Except EntryError Int
  | .number n => .ok n
  | .emptyList => .error error

/-- The numbers in the text of an entry. -/
def numbers : Entry → List Int
  | .number n => [n]
  | .emptyList => []

/-- The text of an operand. -/
def operandText (limit : DigitLimit) (mode : Mode) : Entry → Except (WritingError EntryError) String
  | .number n =>
    if limit.Writes [n] then .ok (Wordcode.operandText mode n)
    else .error (.tooManyDigits limit.excess)
  | .emptyList =>
    match mode with
    | .position => .ok ("[" ++ emptyList.text ++ "]")
    | .immediate => .ok emptyList.text
    | .relative => .error (.own .signedText)

/-- The empty list, repeated `n` times. -/
def repeated (n : Int) : Except EntryError Entry :=
  if -9223372036854775808 ≤ n ∧ n ≤ 9223372036854775807 then .ok .emptyList
  else .error .repetitionLimit

end Entry

/-- The result of an operation on entries. -/
def Computation.applyEntries : Computation → Entry → Entry → Except EntryError Entry
  | operation, .number a, .number b => .ok (.number (operation.apply a b))
  | .add, .emptyList, .emptyList => .ok .emptyList
  | .add, .emptyList, .number _ => .error .listPlusNumber
  | .add, .number _, .emptyList => .error .numberPlusList
  | .multiply, .emptyList, .emptyList => .error .listTimesList
  | .multiply, .emptyList, .number n => Entry.repeated n
  | .multiply, .number n, .emptyList => Entry.repeated n
  | .lessThan, .emptyList, .emptyList => .ok (.number 0)
  | .lessThan, .emptyList, .number _ => .error .listBelowNumber
  | .lessThan, .number _, .emptyList => .error .numberBelowList
  | .equals, a, b => .ok (.number (if a = b then 1 else 0))

/-- A jump with the tested operand `entry` is taken. -/
def Condition.HoldsOf (condition : Condition) : Entry → Prop
  | .number n => condition.Holds n
  | .emptyList => condition = .nonzero

instance (condition : Condition) (entry : Entry) : Decidable (condition.HoldsOf entry) :=
  match entry with
  | .number n => inferInstanceAs (Decidable (condition.Holds n))
  | .emptyList => inferInstanceAs (Decidable (condition = .nonzero))

end Wordcode
