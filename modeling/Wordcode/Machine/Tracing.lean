import Wordcode.Machine.Run

/-!
# Tracing where digits are limited

A machine that traces has the text of an instruction written before it executes it. A host that
limits digits may be unable to write one of the words behind the instruction. Then the step fails
there: the instruction is fetched, but neither reported nor executed. This is no fault of the
program, so none is recorded, and the next step fetches the instruction again.

Without a limit a step is one of `step`, and so it is without a trace: nothing else that a machine
does on its way writes a word of the program, except for the texts of faults.
-/

namespace Wordcode

namespace Machine

/-- A computation on a machine that may also fail to write a number. -/
abbrev TracingM := EStateM (WritingError Failure) Machine

/-- A computation that writes no numbers. -/
def unlimited {α : Type} (action : StepM α) : TracingM α := fun m =>
  match action m with
  | .ok a m => .ok a m
  | .error failure m => .error (.own failure) m

/-- Reports the instruction that is about to be executed, if its text can be written. -/
def announceOn (limit : DigitLimit) (address : Int) (instruction : Instruction) : TracingM Unit :=
  fun m =>
    let literals := literalsAt m.memory address instruction.opcode.arity
    if m.journal.verbose ∧ ¬ limit.Writes literals then .error (.tooManyDigits limit.excess) m
    else unlimited (reportExecution address instruction) m

/-- Fetches, decodes, announces and executes the instruction at the program counter. -/
def cycleOn (limit : DigitLimit) : TracingM Unit := do
  let address := (← get).pc
  let word ← unlimited (readCell address)
  match decodeAt word address with
  | .error fault => throw (.own (.fault fault))
  | .ok instruction =>
    announceOn limit address instruction
    unlimited (execute address instruction)

/-- Executes one instruction and yields the resulting status. -/
def stepOn (limit : DigitLimit) : TracingM Status := fun m =>
  match m.fault with
  | some f => .error (.own (.fault f)) m
  | none =>
    if m.status = .stopped then .error (.own (.fault (.alreadyHalted m.pc))) m
    else match cycleOn limit m with
      | .ok _ m => .ok m.status m
      | .error (.own (.fault f)) m => .error (.own (.fault f)) (m.recordFault f)
      | .error error m => .error error m

/-- One step of a run. -/
def runRoundOn (limit : DigitLimit) (m : Machine) :
    Progress Machine (Except (WritingError Interrupt) Unit × Machine) :=
  match stepOn limit m with
  | .ok .running m => .again m
  | .ok .stopped m => .done (.ok (), m)
  | .ok .waiting m => .done (.error (.own (.blocked m.pc)), m)
  | .error (.own failure) m => .done (.error (.own (.failed failure)), m)
  | .error (.tooManyDigits error) m => .done (.error (.tooManyDigits error), m)

/-- Steps until the machine has halted, is interrupted, or cannot announce an instruction. -/
def runOn (limit : DigitLimit) (fuel : Nat) (m : Machine) :
    Option (Except (WritingError Interrupt) Unit × Machine) :=
  loop (runRoundOn limit) fuel m

end Machine

end Wordcode
