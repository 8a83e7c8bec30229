import Wordcode.Program.Numeral
import Wordcode.Text.Blank

/-!
# Reading programs

A program is written as numerals separated by commas. A comma may also follow the last numeral, and
a text of blanks alone is the empty program. Blanks stand anywhere except inside a numeral.

A text that is no program is refused at the place of the first character from which no program can
go on. Only the numerals of a program are made into words, from the first one on; where the host
limits digits, one of them may have too many. To write a program the host has to write its words.
-/

namespace Wordcode

namespace Program

/-- What stands at the front of a text where a word may come. -/
inductive Field where
  /-- Nothing but blanks, up to the end. -/
  | nothing
  /-- A numeral, and nothing but blanks behind it. -/
  | last (numeral : Numeral)
  /-- A numeral, a comma, and the rest of the text. -/
  | more (numeral : Numeral) (rest : List Char)
  /-- Nothing that could stand there, from `stop` on. -/
  | wrong (stop : List Char)

/-- Reads a text where a word may come. -/
def readField (text : List Char) : Field :=
  match text.dropWhile isBlank with
  | [] => .nothing
  | start =>
    match Numeral.read? start with
    | none => .wrong start
    | some (numeral, behind) =>
      match behind.dropWhile isBlank with
      | [] => .last numeral
      | ',' :: rest => .more numeral rest
      | stop => .wrong stop

theorem length_lt_of_readField_eq_more {text rest : List Char} {numeral : Numeral}
    (h : readField text = .more numeral rest) : rest.length < text.length := by
  have htext := (List.dropWhile_suffix isBlank (l := text)).length_le
  simp only [readField] at h
  split at h
  · cases h
  · split at h
    · cases h
    · rename_i behind hread
      have hlt := Numeral.length_lt_of_read?_eq_some hread
      have hbehind := (List.dropWhile_suffix isBlank (l := behind)).length_le
      split at h
      · cases h
      · rename_i hcomma
        cases h
        rw [hcomma, List.length_cons] at hbehind
        omega
      · cases h

/-- The numerals of a program text behind those in `found`, which are in reverse order, or the part
of the text from which it cannot go on. -/
def readFrom (text : List Char) (found : List Numeral) : Except (List Char) (List Numeral) :=
  match _h : readField text with
  | .nothing => .ok found.reverse
  | .last numeral => .ok (numeral :: found).reverse
  | .more numeral rest => readFrom rest (numeral :: found)
  | .wrong stop => .error stop
termination_by text.length
decreasing_by exact length_lt_of_readField_eq_more _h

/-- The numerals behind those found so far are the numerals of a fresh reading. -/
theorem readFrom_eq_map (text : List Char) (found : List Numeral) :
    readFrom text found = (readFrom text []).map (found.reverse ++ ·) := by
  rw [readFrom, readFrom]
  split
  · simp [Except.map]
  · simp [Except.map]
  · rename_i numeral rest hmore
    have := length_lt_of_readField_eq_more hmore
    rw [readFrom_eq_map rest (numeral :: found), readFrom_eq_map rest [numeral]]
    cases readFrom rest [] <;> simp [Except.map]
  · rfl
termination_by text.length

/-- A place in a text, both counts starting at 1. -/
structure Place where
  line : Nat
  column : Nat
deriving DecidableEq, Repr

/-- The place just behind a text: only a newline ends a line. -/
def Place.after (text : List Char) : Place where
  line := 1 + text.count '\n'
  column := 1 + (text.reverse.takeWhile (· ≠ '\n')).length

/-- Why a text cannot be read as a program. -/
inductive ReadError where
  /-- It is none: from a place on, no program goes on as the text does. -/
  | stops (place : Place)
  /-- It is none: the text ends where a program has to go on. -/
  | unfinished
  /-- It is one with a numeral that the host cannot read. -/
  | tooManyDigits (error : TooManyDigits)
deriving DecidableEq, Repr

/-- The text of the error. -/
def ReadError.message : ReadError → String
  | .stops ⟨line, column⟩ => s!"Malformed program at line {line}, column {column}"
  | .unfinished => "Malformed program: unexpected end of input"
  | .tooManyDigits error => "Error trying to process rule \"value\":\n\n" ++ error.message

/-- The error of a text that is refused from `stop` on. -/
def ReadError.ofStop (text stop : List Char) : ReadError :=
  if stop.isEmpty then .unfinished
  else .stops (.after (text.take (text.length - stop.length)))

/-- The words of the program that a text stands for. -/
def read (limit : DigitLimit) (text : String) : Except ReadError (List Int) := do
  let numerals ← (readFrom text.toList []).mapError (.ofStop text.toList)
  (numerals.mapM (Numeral.toInt limit)).mapError .tooManyDigits

/-- The text of a program, without blanks. -/
def write (limit : DigitLimit) (words : List Int) : Except TooManyDigits String :=
  limit.written words (",".intercalate (words.map toString))

end Program

end Wordcode
