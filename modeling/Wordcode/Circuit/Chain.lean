import Wordcode.Circuit.Basic

/-!
# Chains

In a chain a signal passes through every amplifier once: each runs until it halts, and the last
output of the last one is the result.
-/

namespace Wordcode

namespace Circuit

/-- Drives an amplifier until it halts. -/
def runAmplifier (fuel : Nat) : Drive := fun m =>
  (m.run fuel).map fun
    | (.ok (), m) => (.ok true, m)
    | (.error interrupt, m) => (.error interrupt, m)

/-- Passes a signal through a circuit once. -/
def runChain (fuel : Nat) (circuit : Circuit) (signal : Int) :
    Option (Except CircuitError Int × Circuit) := do
  match ← circuit.pass (runAmplifier fuel) [signal] with
  | (.error interrupt, circuit) => return (.error (.interrupted interrupt), circuit)
  | (.ok swept, circuit) =>
    match swept.outputs.getLast? with
    | none => return (.error .silent, circuit)
    | some result => return (.ok result, circuit)

end Circuit

end Wordcode
