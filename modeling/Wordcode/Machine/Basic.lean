import Wordcode.Journal
import Wordcode.Queue

/-!
# Machines

A machine is a memory that holds the program and its data, a queue of inputs and one of outputs, the
program counter, the base register that relative modes refer to, and counters of what it has done.

A machine is running, waiting for input, or stopped. The first fault that it meets is recorded, and
no machine with a recorded fault goes on.
-/

namespace Wordcode

/-- The state of control of a machine. -/
inductive Status where
  /-- The next step executes the word at the program counter. -/
  | running
  /-- The last step found an input instruction and no input. -/
  | waiting
  /-- The halt instruction was executed. -/
  | stopped
deriving DecidableEq, Repr, Inhabited

/-- How much a machine has done. -/
structure Counters where
  /-- Instructions executed. -/
  steps : Nat
  /-- Words fetched, literals and operands read. -/
  reads : Nat
  /-- Results stored. -/
  writes : Nat
  /-- Input values taken. -/
  inputs : Nat
  /-- Output values produced. -/
  outputs : Nat
deriving DecidableEq, Repr, Inhabited

/-- The counters of a machine that has done nothing. -/
def Counters.zero : Counters := ⟨0, 0, 0, 0, 0⟩

/-- A machine. -/
structure Machine where
  /-- The program and its data. -/
  memory : Memory
  /-- The inputs not taken yet. -/
  inputs : Queue
  /-- The outputs not handed out yet. -/
  outputs : Queue
  /-- The address of the next instruction. -/
  pc : Int
  /-- The address that relative modes count from. -/
  base : Int
  /-- The state of control. -/
  status : Status
  /-- The first fault, if one was met. -/
  fault : Option Fault
  /-- What the machine has done. -/
  counters : Counters
  /-- What the machine has reported. -/
  journal : Journal
deriving DecidableEq, Repr, Inhabited

namespace Machine

/-- A machine that is about to execute the first word of a program, with some inputs queued. -/
def load (program inputs : List Int) (verbose : Bool) : Machine where
  memory := .ofList program
  inputs := .ofList inputs
  outputs := ∅
  pc := 0
  base := 0
  status := .running
  fault := none
  counters := .zero
  journal := .empty verbose

/-- The machine with more inputs queued. -/
def addInputs (m : Machine) (values : List Int) : Machine :=
  { m with inputs := m.inputs.extend values }

/-- The outputs not handed out yet, and the machine without them. -/
def drainOutputs (m : Machine) : List Int × Machine :=
  (m.outputs.toList, { m with outputs := ∅ })

/-- The machine has not executed a halt instruction. -/
def IsRunning (m : Machine) : Prop := m.status ≠ .stopped

instance (m : Machine) : Decidable m.IsRunning :=
  inferInstanceAs (Decidable (m.status ≠ .stopped))

/-- The machine with all counters at zero. -/
def resetCounters (m : Machine) : Machine := { m with counters := .zero }

/-- The journal, and the machine with an empty one. -/
def takeJournal (m : Machine) : Journal × Machine :=
  (m.journal, { m with journal := m.journal.cleared })

/-- A summary of the counters, in three lines. -/
def summary (m : Machine) : String :=
  let c := m.counters
  let size := m.memory.size
  s!"Steps: {c.steps}\nMemory: {c.reads}R/{c.writes}W ({size} cells)\n" ++
    s!"IO: {c.inputs} in / {c.outputs} out"

end Machine

end Wordcode
