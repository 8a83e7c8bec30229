import Wordcode.Machine.Basic

/-!
# One step of a machine

A step fetches the word at the program counter, decodes it and executes the instruction:

* the literals and operands are read in the order of the parameters, the destination last, and each
  access is counted before it can fail;
* an input instruction takes its value first, and without one leaves the machine waiting at that
  same instruction;
* a jump reads its goal whether it is taken or not;
* the halt instruction leaves the program counter where it is.

A step that fails keeps what it has changed so far, and a fault that arises in it is recorded. A
machine with a recorded fault fails with it again, and so does a stopped machine, unrecorded.
-/

namespace Wordcode

namespace Machine

/-- A computation on a machine that may fail, and then leaves a machine too. -/
abbrev StepM := EStateM Failure Machine

/-- Reads a cell, and counts it. -/
def readCell (address : Int) : StepM Int := fun m =>
  let counters := { m.counters with reads := m.counters.reads + 1 }
  match m.memory.read address with
  | .ok (value, memory) => .ok value { m with memory, counters }
  | .error e => .error (.ofAccess e) { m with counters }

/-- Writes a cell, and counts it. -/
def writeCell (address value : Int) : StepM Unit := fun m =>
  let counters := { m.counters with writes := m.counters.writes + 1 }
  match m.memory.write address value with
  | .ok memory => .ok () { m with memory, counters }
  | .error e => .error (.ofAccess e) { m with counters }

/-- The value of a source whose literal is at `address`. -/
def source (mode : Mode) (address : Int) : StepM Int := do
  let literal ← readCell address
  match mode with
  | .position => readCell literal
  | .immediate => return literal
  | .relative => readCell (literal + (← get).base)

/-- Stores a value in the destination whose literal is at `address`. -/
def store (destination : Destination) (address value : Int) : StepM Unit := do
  let literal ← readCell address
  match destination with
  | .position => writeCell literal value
  | .relative => writeCell (literal + (← get).base) value

/-- Takes the oldest input, if there is one, and counts it. -/
def takeInput : StepM (Option Int) := fun m =>
  match m.inputs.pop? with
  | none => .ok none m
  | some (value, inputs) =>
    .ok (some value)
      { m with inputs, counters := { m.counters with inputs := m.counters.inputs + 1 } }

/-- Queues an output, and counts it. -/
def emit (value : Int) : StepM Unit :=
  modify fun m =>
    { m with
      outputs := m.outputs.push value
      counters := { m.counters with outputs := m.counters.outputs + 1 } }

/-- Counts an instruction as executed and continues at `next`. -/
def finish (next : Int) : StepM Unit :=
  modify fun m =>
    { m with
      pc := next
      status := .running
      counters := { m.counters with steps := m.counters.steps + 1 } }

/-- Waits for input at the instruction at `address`. -/
def block (address : Int) : StepM Unit :=
  modify fun m =>
    if m.status = .waiting then m
    else { m with status := .waiting, journal := m.journal.note (.blocked address) }

/-- Counts a halt instruction as executed and stops. -/
def stop : StepM Unit :=
  modify fun m =>
    { m with
      status := .stopped
      counters := { m.counters with steps := m.counters.steps + 1 } }

/-- Executes the instruction at `address`. -/
def execute (address : Int) : Instruction → StepM Unit
  | .compute operation left right result => do
    let a ← source left (address + 1)
    let b ← source right (address + 2)
    store result (address + 3) (operation.apply a b)
    finish (address + 4)
  | .input result => do
    match ← takeInput with
    | none => block address
    | some value =>
      store result (address + 1) value
      finish (address + 2)
  | .output mode => do
    let value ← source mode (address + 1)
    emit value
    finish (address + 2)
  | .jump condition test goal => do
    let value ← source test (address + 1)
    let next ← source goal (address + 2)
    finish (if condition.Holds value then next else address + 3)
  | .adjustBase mode => do
    let offset ← source mode (address + 1)
    modify fun m => { m with base := m.base + offset }
    finish (address + 2)
  | .halt => stop

/-- The words that a memory holds behind `address`, one for each parameter. -/
def literalsAt (memory : Memory) (address : Int) (arity : Nat) : List Int :=
  (List.range arity).map fun k : Nat => memory.peek (address + 1 + k)

/-- Reports the instruction that is about to be executed. -/
def reportExecution (address : Int) (instruction : Instruction) : StepM Unit :=
  modify fun m =>
    if m.journal.verbose then
      let literals := literalsAt m.memory address instruction.opcode.arity
      { m with journal := m.journal.note (.executing address instruction literals) }
    else m

/-- Fetches, decodes and executes the instruction at the program counter. -/
def cycle : StepM Unit := do
  let address := (← get).pc
  let word ← readCell address
  match decodeAt word address with
  | .error fault => throw (.fault fault)
  | .ok instruction =>
    reportExecution address instruction
    execute address instruction

/-- The machine with a fault recorded and reported. -/
def recordFault (m : Machine) (f : Fault) : Machine :=
  { m with fault := some f, journal := m.journal.note (.faulted f) }

/-- Executes one instruction and yields the resulting status. -/
def step : StepM Status := fun m =>
  match m.fault with
  | some f => .error (.fault f) m
  | none =>
    if m.status = .stopped then .error (.fault (.alreadyHalted m.pc)) m
    else match cycle m with
      | .ok _ m => .ok m.status m
      | .error (.fault f) m => .error (.fault f) (m.recordFault f)
      | .error .memoryLimit m => .error .memoryLimit m

end Machine

end Wordcode
