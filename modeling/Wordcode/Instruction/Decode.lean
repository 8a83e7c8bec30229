import Wordcode.Instruction.Basic

/-!
# Instruction words

An instruction word holds the operation in its two low decimal digits and above them one mode digit
per parameter, the first parameter lowest:

```text
1002   02 multiply, first parameter 0 position, second 1 immediate, third 0 position
```

Digits above the last parameter carry no meaning. `decode` reads a word and names the first thing
that is wrong with one it refuses; `Instruction.encode` writes an instruction with any digits above.
-/

namespace Wordcode

/-- What is wrong with a word that is no instruction. -/
inductive Defect where
  /-- The word is negative. -/
  | negativeWord
  /-- No operation has the number in the two low digits. -/
  | unknownOperation
  /-- The mode digit of a parameter stands for no mode. -/
  | unknownMode (digit parameter : Nat)
  /-- The parameter is a destination and its mode is immediate. -/
  | immediateDestination (parameter : Nat)
deriving DecidableEq, Repr

/-- The words that explain a defect. An unknown operation needs none. -/
def Defect.reason? : Defect → Option String
  | .negativeWord => some "negative instruction word"
  | .unknownOperation => none
  | .unknownMode digit parameter => some s!"mode {digit} for parameter {parameter}"
  | .immediateDestination parameter => some s!"immediate mode for write parameter {parameter}"

/-- The mode digit of a parameter in an instruction word. -/
def modeDigit (word parameter : Nat) : Nat := word / Nat.pow 10 (parameter + 2) % 10

/-- The mode of a source parameter. -/
def sourceMode (word parameter : Nat) : Except Defect Mode :=
  match Mode.ofDigit? (modeDigit word parameter) with
  | some mode => .ok mode
  | none => .error (.unknownMode (modeDigit word parameter) parameter)

/-- The mode of a destination parameter. -/
def destinationMode (word parameter : Nat) : Except Defect Destination :=
  match sourceMode word parameter with
  | .ok .position => .ok .position
  | .ok .relative => .ok .relative
  | .ok .immediate => .error (.immediateDestination parameter)
  | .error defect => .error defect

/-- The instruction with the given operation and the modes that the word holds. -/
def Opcode.withModes (word : Nat) : Opcode → Except Defect Instruction
  | .compute operation => do
    let left ← sourceMode word 0
    let right ← sourceMode word 1
    let result ← destinationMode word 2
    return .compute operation left right result
  | .input => return .input (← destinationMode word 0)
  | .output => return .output (← sourceMode word 0)
  | .jump condition => do
    let test ← sourceMode word 0
    let goal ← sourceMode word 1
    return .jump condition test goal
  | .adjustBase => return .adjustBase (← sourceMode word 0)
  | .halt => return .halt

/-- The instruction that a word stands for, or the first defect of the word: its sign, then its
operation, then its parameters in their order. -/
def decode (word : Int) : Except Defect Instruction :=
  if word < 0 then .error .negativeWord
  else match Opcode.ofCode? (word.toNat % 100) with
    | none => .error .unknownOperation
    | some opcode => opcode.withModes word.toNat

/-- The number that the mode digits form, the first parameter lowest. -/
def modeNumber : List Mode → Nat
  | [] => 0
  | mode :: modes => mode.digit + 10 * modeNumber modes

/-- The word of an instruction, with the digits of `rest` above the last mode digit. -/
def Instruction.encode (instruction : Instruction) (rest : Nat) : Nat :=
  instruction.opcode.code +
    100 * (modeNumber instruction.modes + Nat.pow 10 instruction.opcode.arity * rest)

end Wordcode
