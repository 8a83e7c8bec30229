import Wordcode.Machine.Run

/-!
# Circuits of amplifiers

A circuit is a row of machines, the amplifiers, that all run the same program. Each has its phase
setting as its first input, and what one outputs is input of the next.

Everything a circuit does is a *sweep*: from the first amplifier to the last, each one is given what
the one before has output, is driven for a while, and its outputs are taken. A sweep ends early at
an amplifier that cannot go on; that one keeps its outputs, and those behind it are not driven.
-/

namespace Wordcode

/-- Why a circuit yields no signal. -/
inductive CircuitError where
  /-- A circuit has at least one amplifier. -/
  | noPhases
  /-- An amplifier was interrupted. -/
  | interrupted (interrupt : Interrupt)
  /-- The last amplifier has output nothing. -/
  | silent
  /-- No amplifier can go on, and one waits for input. -/
  | deadlocked
deriving DecidableEq, Repr

/-- The text of the error. -/
def CircuitError.message : CircuitError → String
  | .noPhases => "An amplifier network needs at least one phase"
  | .interrupted interrupt => interrupt.message
  | .silent => "Last amplifier produced no output"
  | .deadlocked => "Amplifier network deadlocked waiting for input"

/-- A row of amplifiers. -/
structure Circuit where
  /-- The amplifiers, from the first to the last. -/
  amplifiers : List Machine
  /-- How many rounds of feedback the circuit has gone through. -/
  rounds : Nat
  /-- The last signal that the last amplifier has sent in a feedback loop. -/
  signal : Option Int
  /-- What the amplifiers have reported. -/
  journal : Journal
deriving DecidableEq, Repr

namespace Circuit

/-- A circuit whose amplifiers run a program and have the given phase settings. -/
def build (program phases : List Int) (journal : Journal) : Except CircuitError Circuit :=
  if phases.isEmpty then .error .noPhases
  else .ok
    { amplifiers := phases.map fun phase => .load program [phase] journal.verbose
      rounds := 0
      signal := none
      journal }

/-- What a sweep that reached the end leaves. -/
structure Swept where
  /-- What the last amplifier has output. -/
  outputs : List Int
  /-- Whether some amplifier got on. -/
  progressed : Bool
deriving DecidableEq, Repr

/-- A way to drive an amplifier: whether it got on, or what interrupted it. -/
abbrev Drive := Machine → Option (Except Interrupt Bool × Machine)

/-- Drives the amplifiers one after another, the first of them with the given values. -/
def sweep (drive : Drive) :
    List Machine → List Int → Option (Except Interrupt Swept × List Machine)
  | [], values => some (.ok ⟨values, false⟩, [])
  | amplifier :: rest, values => do
    match ← drive (amplifier.addInputs values) with
    | (.error interrupt, amplifier) => return (.error interrupt, amplifier :: rest)
    | (.ok progressed, amplifier) =>
      let (outputs, amplifier) := amplifier.drainOutputs
      match ← sweep drive rest outputs with
      | (.error interrupt, rest) => return (.error interrupt, amplifier :: rest)
      | (.ok swept, rest) =>
        return (.ok ⟨swept.outputs, progressed || swept.progressed⟩, amplifier :: rest)

/-- The circuit with what its amplifiers have reported moved to its own journal. -/
def collectJournals (circuit : Circuit) : Circuit :=
  { circuit with
    amplifiers := circuit.amplifiers.map (·.takeJournal.2)
    journal := circuit.amplifiers.foldl (fun journal m => journal.append m.journal)
      circuit.journal }

/-- A sweep over a circuit. -/
def pass (drive : Drive) (circuit : Circuit) (values : List Int) :
    Option (Except Interrupt Swept × Circuit) := do
  let (result, amplifiers) ← sweep drive circuit.amplifiers values
  return (result, { circuit with amplifiers }.collectJournals)

end Circuit

end Wordcode
