import Wordcode.Loop
import Wordcode.Machine.Step

/-!
# Running a machine

A run repeats steps until the machine has halted, waits for input, or has failed. Afterwards it can
be resumed: more input and one more run continue where the machine stands.

A run need not end, so each takes the number of steps (`fuel`) after which it is given up, and then
yields `none`.
-/

namespace Wordcode

/-- Why a run ends before the halt instruction. -/
inductive Interrupt where
  /-- The instruction at an address waits for input. -/
  | blocked (address : Int)
  /-- A step failed. -/
  | failed (failure : Failure)
deriving DecidableEq, Repr

/-- The text of an interrupt. -/
def Interrupt.message : Interrupt → String
  | .blocked address => s!"Waiting for input at offset {address}"
  | .failed failure => failure.message

/-- How a step or a run ends. -/
inductive Outcome where
  /-- The machine got on and is now in the given state. -/
  | progressed (status : Status)
  /-- The machine stands at an interrupt. -/
  | interrupted (interrupt : Interrupt)
deriving DecidableEq, Repr

namespace Machine

/-- One step, and how it ended. -/
def tryStep (m : Machine) : Outcome × Machine :=
  match step m with
  | .ok .waiting m => (.interrupted (.blocked m.pc), m)
  | .ok status m => (.progressed status, m)
  | .error failure m => (.interrupted (.failed failure), m)

/-- One step of a run. -/
def runRound (m : Machine) : Progress Machine (Except Interrupt Unit × Machine) :=
  match step m with
  | .ok .running m => .again m
  | .ok .stopped m => .done (.ok (), m)
  | .ok .waiting m => .done (.error (.blocked m.pc), m)
  | .error failure m => .done (.error (.failed failure), m)

/-- Steps until the machine has halted, or is interrupted. -/
def run (fuel : Nat) (m : Machine) : Option (Except Interrupt Unit × Machine) :=
  loop runRound fuel m

/-- A run, and how it ended. -/
def tryRun (fuel : Nat) (m : Machine) : Option (Outcome × Machine) :=
  (run fuel m).map fun
    | (.ok (), m) => (.progressed m.status, m)
    | (.error interrupt, m) => (.interrupted interrupt, m)

/-- One step of a run up to the next output. -/
def outputRound (m : Machine) : Progress Machine (Except Interrupt (Option Int) × Machine) :=
  match m.outputs.pop? with
  | some (value, outputs) => .done (.ok (some value), { m with outputs })
  | none =>
    if m.status = .stopped then .done (.ok none, m)
    else match step m with
      | .ok .waiting m => .done (.error (.blocked m.pc), m)
      | .ok _ m => .again m
      | .error failure m => .done (.error (.failed failure), m)

/-- Steps until there is an output and takes it, or yields `none` once the machine has halted and
all outputs are taken. -/
def runUntilOutput (fuel : Nat) (m : Machine) : Option (Except Interrupt (Option Int) × Machine) :=
  loop outputRound fuel m

end Machine

end Wordcode
