import Wordcode.Instruction.Decode
import Wordcode.Memory.Basic

/-!
# Faults

What can go wrong for good while a program runs. A fault is the program's doing and is final for
its machine; `Failure` adds the one failure that is the host's.

The text of a fault is made together with the fault. The host is assumed to write the word and the
address in it, that is, they have no more digits than its limit (`DigitLimit`), if it has one.
-/

namespace Wordcode

/-- A final error of a program. -/
inductive Fault where
  /-- The word at an address was to be executed and is no instruction. -/
  | badInstruction (word address : Int) (defect : Defect)
  /-- A negative address was accessed. -/
  | negativeAddress (address : Int)
  /-- The machine was to execute the halt instruction at an address once more. -/
  | alreadyHalted (address : Int)
deriving DecidableEq, Repr

/-- The text of a fault. -/
def Fault.message : Fault → String
  | .badInstruction word address defect =>
    let text := s!"The opcode `{word}` at offset {address} is invalid"
    match defect.reason? with
    | none => text
    | some reason => text ++ " (" ++ reason ++ ")"
  | .negativeAddress address => s!"Access to negative address {address}"
  | .alreadyHalted address => s!"Machine already halted at offset {address}"

/-- The instruction that the word at an address stands for, or the fault of executing it. -/
def decodeAt (word address : Int) : Except Fault Instruction :=
  (decode word).mapError (.badInstruction word address)

/-- Why a step ends without a result. -/
inductive Failure where
  /-- The program is at fault. -/
  | fault (fault : Fault)
  /-- An access would append more cells than the host can address. -/
  | memoryLimit
deriving DecidableEq, Repr

/-- The text of a failure. -/
def Failure.message : Failure → String
  | .fault f => f.message
  | .memoryLimit => "cannot fit 'int' into an index-sized integer"

/-- The failure that a refused memory access amounts to. -/
def Failure.ofAccess : Memory.AccessError → Failure
  | .negative address => .fault (.negativeAddress address)
  | .tooLarge => .memoryLimit

end Wordcode
