import Wordcode.Machine.Run
import Wordcode.Mixed.Entry

/-!
# Machines with entries

A mixed machine runs a program some of whose words are empty lists. It is a machine that holds 0 in
their place, together with the places: addresses, positions among all inputs, and positions among
all outputs. Execution goes on as in a machine of numbers, word by word and count by count, except
that an operation may fail because an empty list is no number. Such a failure is no fault of the
program that a machine would record: it ends the run at once. So does a trace of a number with more
digits than the host writes.
-/

namespace Wordcode

/-- A machine some of whose words are empty lists. -/
structure MixedMachine where
  /-- The machine, with 0 in the place of each empty list. -/
  machine : Machine
  /-- The addresses of the empty lists in the memory. -/
  emptyCells : List Int
  /-- The positions of the empty lists among all inputs, those taken included. -/
  emptyInputs : List Nat
  /-- The positions of the empty lists among all outputs. -/
  emptyOutputs : List Nat
  /-- The lines reported of executed instructions. -/
  trace : Array String

namespace MixedMachine

/-- A mixed machine that is about to execute the first word of a program, with the empty list at the
given addresses, and with some inputs queued. -/
def load (program emptyCells : List Int) (inputs : List Entry) (verbose : Bool) :
    MixedMachine where
  machine := .load program (inputs.map Entry.toInt) verbose
  emptyCells
  emptyInputs := inputs.zipIdx.filterMap fun (entry, k) =>
    if entry = .emptyList then some k else none
  emptyOutputs := []
  trace := #[]

/-- Why a step ends without a result. -/
inductive StepError where
  /-- A machine of numbers would fail here too. -/
  | failed (failure : Failure)
  /-- An empty list is no number. -/
  | misused (error : EntryError)
  /-- A number that is traced has too many digits. -/
  | tooManyDigits (error : TooManyDigits)
deriving DecidableEq, Repr

/-- A computation on a mixed machine that may fail, and then leaves one too. -/
abbrev StepM := EStateM StepError MixedMachine

/-- A computation on the machine of numbers alone. -/
def onMachine {α : Type} (action : Machine.StepM α) : StepM α := fun s =>
  match action s.machine with
  | .ok a machine => .ok a { s with machine }
  | .error e machine => .error (.failed e) { s with machine }

/-- The result of an operation on entries. -/
def require {α : Type} : Except EntryError α → StepM α
  | .ok a => pure a
  | .error e => throw (.misused e)

/-- The entry at an address of a mixed machine. -/
def peek (s : MixedMachine) (address : Int) : Entry :=
  if address ∈ s.emptyCells then .emptyList else .number (s.machine.memory.peek address)

/-- Reads a cell. -/
def readCell (address : Entry) : StepM Entry := do
  let address ← require (address.expectNumber .listBelowNumber)
  let value ← onMachine (Machine.readCell address)
  return if address ∈ (← get).emptyCells then .emptyList else .number value

/-- Writes a cell. -/
def writeCell (address entry : Entry) : StepM Unit := do
  let address ← require (address.expectNumber .listBelowNumber)
  onMachine (Machine.writeCell address entry.toInt)
  modify fun s =>
    { s with emptyCells :=
        if entry = .emptyList then s.emptyCells.insert address else s.emptyCells.erase address }

/-- An address at the distance `literal` from the base register, or else the given error. -/
def fromBase (error : EntryError) (literal : Entry) : StepM Entry := do
  let distance ← require (literal.expectNumber error)
  return .number (distance + (← get).machine.base)

/-- The value of a source whose literal is at `address`. -/
def source (mode : Mode) (address : Int) : StepM Entry := do
  let literal ← readCell (.number address)
  match mode with
  | .position => readCell literal
  | .immediate => return literal
  | .relative => readCell (← fromBase .listPlusNumber literal)

/-- Stores an entry in the destination whose literal is at `address`. -/
def store (destination : Destination) (address : Int) (entry : Entry) : StepM Unit := do
  let literal ← readCell (.number address)
  match destination with
  | .position => writeCell literal entry
  | .relative => writeCell (← fromBase .listExtension literal) entry

/-- Takes the oldest input, if there is one. -/
def takeInput : StepM (Option Entry) := do
  let s ← get
  match ← onMachine Machine.takeInput with
  | none => return none
  | some value =>
    -- as many inputs were taken before as the position of this one
    let position := s.machine.counters.inputs
    return some (if position ∈ s.emptyInputs then .emptyList else .number value)

/-- Queues an output. -/
def emit (entry : Entry) : StepM Unit := do
  let position := (← get).machine.counters.outputs
  onMachine (Machine.emit entry.toInt)
  if entry = .emptyList then
    modify fun s => { s with emptyOutputs := position :: s.emptyOutputs }

/-- Executes the instruction at `address`. -/
def execute (address : Int) : Instruction → StepM Unit
  | .compute operation left right result => do
    let a ← source left (address + 1)
    let b ← source right (address + 2)
    store result (address + 3) (← require (operation.applyEntries a b))
    onMachine (Machine.finish (address + 4))
  | .input result => do
    match ← takeInput with
    | none => onMachine (Machine.block address)
    | some entry =>
      store result (address + 1) entry
      onMachine (Machine.finish (address + 2))
  | .output mode => do
    emit (← source mode (address + 1))
    onMachine (Machine.finish (address + 2))
  | .jump condition test goal => do
    let entry ← source test (address + 1)
    let next ← source goal (address + 2)
    if condition.HoldsOf entry then
      -- no instruction can be fetched from an empty list
      onMachine (Machine.finish (← require (next.expectNumber .listBelowNumber)))
    else onMachine (Machine.finish (address + 3))
  | .adjustBase mode => do
    let offset ← require ((← source mode (address + 1)).expectNumber .baseOffset)
    onMachine do
      modify fun m => { m with base := m.base + offset }
      Machine.finish (address + 2)
  | .halt => onMachine Machine.stop

/-- Reports the instruction that is about to be executed. -/
def reportExecution (limit : DigitLimit) (address : Int) (instruction : Instruction) :
    StepM Unit := do
  let s ← get
  if s.machine.journal.verbose then
    match instruction.modes.zipIdx.mapM fun (mode, k) =>
        (s.peek (address + 1 + k)).operandText limit mode with
    | .error (.own e) => throw (.misused e)
    | .error (.tooManyDigits e) => throw (.tooManyDigits e)
    | .ok operands =>
      let message := Event.executionText address (instruction.textWith operands)
      set { s with trace := s.trace.push (Event.line .debug Event.machineOrigin message) }

/-- Fetches, decodes and executes the instruction at the program counter. -/
def cycle (limit : DigitLimit) : StepM Unit := do
  let address := (← get).machine.pc
  let word ← require ((← readCell (.number address)).expectNumber .listBelowNumber)
  match decodeAt word address with
  | .error fault => throw (.failed (.fault fault))
  | .ok instruction =>
    reportExecution limit address instruction
    execute address instruction

/-- Why a run ends before the halt instruction. -/
inductive RunError where
  /-- A machine of numbers would be interrupted here too. -/
  | interrupted (interrupt : Interrupt)
  /-- An empty list is no number. -/
  | misused (error : EntryError)
  /-- A number that is traced has too many digits. -/
  | tooManyDigits (error : TooManyDigits)
deriving DecidableEq, Repr

/-- One step of a run. -/
def runRound (limit : DigitLimit) (s : MixedMachine) :
    Progress MixedMachine (Except RunError Unit × MixedMachine) :=
  match cycle limit s with
  | .ok _ s =>
    match s.machine.status with
    | .running => .again s
    | .stopped => .done (.ok (), s)
    | .waiting => .done (.error (.interrupted (.blocked s.machine.pc)), s)
  | .error (.misused e) s => .done (.error (.misused e), s)
  | .error (.tooManyDigits e) s => .done (.error (.tooManyDigits e), s)
  | .error (.failed failure) s =>
    let machine := match failure with
      | .fault f => s.machine.recordFault f
      | .memoryLimit => s.machine
    .done (.error (.interrupted (.failed failure)), { s with machine })

/-- Steps until the machine has halted, or the run ends for another reason. -/
def run (limit : DigitLimit) (fuel : Nat) (s : MixedMachine) :
    Option (Except RunError Unit × MixedMachine) :=
  loop (runRound limit) fuel s

/-- The outputs, the first one first. -/
def outputs (s : MixedMachine) : List Entry :=
  s.machine.outputs.toList.zipIdx.map fun (value, k) =>
    if k ∈ s.emptyOutputs then .emptyList else .number value

/-- The lines of what was reported. A run reports nothing of its end before it ends. -/
def logLines (s : MixedMachine) : List String := s.trace.toList ++ s.machine.journal.lines

end MixedMachine

end Wordcode
