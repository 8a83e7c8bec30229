import Wordcode.Machine.Step

/-!
# The abstract machine

The machine that the instruction set is about: its memory has a cell at every
address from 0 on and never grows, its queues are lists, and it counts and
reports nothing. One transition executes one instruction. The operands and the
destination are found in the memory as it is before the instruction; only then
the instruction's row of the table is applied (`apply`).

A transition is undefined, and names a fault, on a machine that has halted,
where the word at the program counter is no instruction, and where a cell at a
negative address is accessed; of several such addresses it names the first
(`accesses`).
-/

namespace Wordcode

/-- A machine that has a cell at every address. -/
structure AbstractMachine where
  /-- The cells, by their addresses. -/
  memory : Nat → Int
  /-- The address of the next instruction. -/
  pc : Int
  /-- The address that relative modes count from. -/
  base : Int
  /-- The inputs not taken yet. -/
  inputs : List Int
  /-- The outputs not handed out yet. -/
  outputs : List Int
  /-- The state of control. -/
  status : Status

namespace AbstractMachine

/-- The abstract machine about to execute a program. All cells behind the
program are 0. -/
def start (program inputs : List Int) : AbstractMachine where
  memory a := program.getD a 0
  pc := 0
  base := 0
  inputs := inputs
  outputs := []
  status := .running

variable (s : AbstractMachine)

/-- The cell at `a`. There is none at a negative address. -/
def cell (a : Int) : Int := if a < 0 then 0 else s.memory a.toNat

/-- The `k`-th word behind the program counter. -/
def literal (k : Int) : Int := s.cell (s.pc + k)

/-- The value of a source that is the `k`-th parameter. -/
def operand (mode : Mode) (k : Int) : Int :=
  match mode with
  | .position => s.cell (s.literal k)
  | .immediate => s.literal k
  | .relative => s.cell (s.literal k + s.base)

/-- The address of a destination that is the `k`-th parameter. -/
def destination (mode : Destination) (k : Int) : Int :=
  match mode with
  | .position => s.literal k
  | .relative => s.literal k + s.base

/-- The machine with `v` at `a`. -/
def store (a v : Int) : AbstractMachine :=
  { s with memory := fun b => if b = a.toNat then v else s.memory b }

/-- The machine about to execute the instruction at `pc`. -/
def goTo (pc : Int) : AbstractMachine := { s with pc, status := .running }

/-- The machine after an instruction: the table of the instruction set. -/
def apply : Instruction → AbstractMachine
  | .compute .add x y z =>
    (s.store (s.destination z 3) (s.operand x 1 + s.operand y 2)).goTo (s.pc + 4)
  | .compute .multiply x y z =>
    (s.store (s.destination z 3) (s.operand x 1 * s.operand y 2)).goTo (s.pc + 4)
  | .compute .lessThan x y z =>
    (s.store (s.destination z 3) (if s.operand x 1 < s.operand y 2 then 1 else 0)).goTo (s.pc + 4)
  | .compute .equals x y z =>
    (s.store (s.destination z 3) (if s.operand x 1 = s.operand y 2 then 1 else 0)).goTo (s.pc + 4)
  | .input z =>
    match s.inputs with
    | [] => { s with status := .waiting }
    | v :: rest => { s.store (s.destination z 1) v with inputs := rest }.goTo (s.pc + 2)
  | .output x => { s with outputs := s.outputs ++ [s.operand x 1] }.goTo (s.pc + 2)
  | .jump .nonzero x y => s.goTo (if s.operand x 1 ≠ 0 then s.operand y 2 else s.pc + 3)
  | .jump .zero x y => s.goTo (if s.operand x 1 = 0 then s.operand y 2 else s.pc + 3)
  | .adjustBase x => { s with base := s.base + s.operand x 1 }.goTo (s.pc + 2)
  | .halt => { s with status := .stopped }

/-- The addresses accessed for a source that is the `k`-th parameter. -/
def sourceAccesses (mode : Mode) (k : Int) : List Int :=
  match mode with
  | .position => [s.pc + k, s.literal k]
  | .immediate => [s.pc + k]
  | .relative => [s.pc + k, s.literal k + s.base]

/-- The addresses accessed for a destination that is the `k`-th parameter. -/
def destinationAccesses (mode : Destination) (k : Int) : List Int :=
  [s.pc + k, s.destination mode k]

/-- The addresses that an instruction accesses behind its word, in their order.
A jump accesses its goal whether it is taken or not, and an input instruction
without an input accesses nothing. -/
def accesses : Instruction → List Int
  | .compute _ x y z => s.sourceAccesses x 1 ++ s.sourceAccesses y 2 ++ s.destinationAccesses z 3
  | .input z => if s.inputs = [] then [] else s.destinationAccesses z 1
  | .output x => s.sourceAccesses x 1
  | .jump _ x y => s.sourceAccesses x 1 ++ s.sourceAccesses y 2
  | .adjustBase x => s.sourceAccesses x 1
  | .halt => []

/-- The machine after one instruction, or the fault that it ends in. -/
def transition : Except Fault AbstractMachine :=
  if s.status = .stopped then .error (.alreadyHalted s.pc)
  else if s.pc < 0 then .error (.negativeAddress s.pc)
  else match decode (s.cell s.pc) with
    | .error defect => .error (.badInstruction (s.cell s.pc) s.pc defect)
    | .ok i =>
      match (s.accesses i).find? (· < 0) with
      | some a => .error (.negativeAddress a)
      | none => .ok (s.apply i)

/-- The addresses that a transition accesses. -/
def transitionAccesses : List Int :=
  match decode (s.cell s.pc) with
  | .error _ => [s.pc]
  | .ok i => s.pc :: s.accesses i

end AbstractMachine

/-! ## Calls -/

/-- What a host can have a machine do. -/
inductive Call where
  /-- One step. -/
  | step
  /-- Queue more inputs. -/
  | addInputs (values : List Int)

/-- One call to a machine. -/
def Machine.call : Call → StepM Unit
  | .step => discard step
  | .addInputs values => modify (·.addInputs values)

/-- Calls to a machine, up to the first that fails. -/
def Machine.calls : List Call → StepM Unit
  | [] => pure ()
  | c :: cs => do
    call c
    calls cs

/-- One call to an abstract machine. -/
def AbstractMachine.call (s : AbstractMachine) : Call → Except Fault AbstractMachine
  | .step => s.transition
  | .addInputs values => .ok { s with inputs := s.inputs ++ values }

/-- Calls to an abstract machine, up to the first that fails. -/
def AbstractMachine.calls (s : AbstractMachine) : List Call → Except Fault AbstractMachine
  | [] => .ok s
  | c :: cs => do (← s.call c).calls cs

end Wordcode
