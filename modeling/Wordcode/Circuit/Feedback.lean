import Wordcode.Circuit.Basic

/-!
# Feedback loops

In a feedback loop what the last amplifier outputs is input of the first. The loop goes round by
round until every amplifier has halted: a round serves each amplifier in turn, until it has halted
or waits for input. The outputs of the last amplifier are held until the next round.

A round in which no amplifier gets on and one waits for input is a deadlock: nothing is on its way
to any amplifier, and nothing will be.
-/

namespace Wordcode

namespace Circuit

/-- One step in serving an amplifier. The flag tells whether it has got on so far. -/
def serviceRound : Machine × Bool → Progress (Machine × Bool) (Except Interrupt Bool × Machine)
  | (m, progressed) =>
    if m.IsRunning then
      match m.tryStep with
      | (.progressed _, m) => .again (m, true)
      | (.interrupted (.blocked _), m) => .done (.ok progressed, m)
      | (.interrupted interrupt, m) => .done (.error interrupt, m)
    else .done (.ok progressed, m)

/-- Drives an amplifier until it has halted or waits for input. -/
def serve (fuel : Nat) : Drive := fun m => loop serviceRound fuel (m, false)

/-- A round of a feedback loop, with the values held for the first amplifier. -/
def round (fuel : Nat) (circuit : Circuit) (held : List Int) :
    Option (Except CircuitError (List Int) × Circuit) := do
  let circuit := { circuit with rounds := circuit.rounds + 1 }
  match ← circuit.pass (serve fuel) held with
  | (.error interrupt, circuit) => return (.error (.interrupted interrupt), circuit)
  | (.ok swept, circuit) =>
    let circuit := { circuit with signal := swept.outputs.getLast?.or circuit.signal }
    if swept.progressed = false ∧ ∃ m ∈ circuit.amplifiers, m.status = .waiting then
      return (.error .deadlocked, circuit)
    else return (.ok swept.outputs, circuit)

/-- The end of a feedback loop: the last signal of the last amplifier. -/
def close (circuit : Circuit) : Except CircuitError Int × Circuit :=
  let closed := { circuit with journal := circuit.journal.note (.loopFinished circuit.rounds) }
  match circuit.signal with
  | none => (.error .silent, closed)
  | some signal => (.ok signal, closed)

/-- The next round of a feedback loop, if some amplifier has not halted. -/
def feedbackRound (fuel : Nat) :
    Circuit × List Int → Progress (Circuit × List Int) (Option (Except CircuitError Int × Circuit))
  | (circuit, held) =>
    if ∃ m ∈ circuit.amplifiers, m.IsRunning then
      match circuit.round fuel held with
      | none => .done none
      | some (.error e, circuit) => .done (some (.error e, circuit))
      | some (.ok held, circuit) => .again (circuit, held)
    else .done (some circuit.close)

/-- The circuit with a value queued at its first amplifier. -/
def inject (circuit : Circuit) (value : Int) : Circuit :=
  match circuit.amplifiers with
  | [] => circuit
  | first :: rest => { circuit with amplifiers := first.addInputs [value] :: rest }

/-- Sends a signal into a feedback loop and goes round until every amplifier has halted. -/
def runFeedback (fuel : Nat) (circuit : Circuit) (signal : Int) :
    Option (Except CircuitError Int × Circuit) :=
  (loop (feedbackRound fuel) fuel (circuit.inject signal, [])).join

end Circuit

end Wordcode
