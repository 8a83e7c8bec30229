import Wordcode.Circuit.Chain
import Wordcode.Circuit.Feedback
import Wordcode.Circuit.Orderings

/-!
# The best phase settings

Each ordering of the phase settings makes a circuit of its own, with a signal of its own. The search
tries them all in the order of `orderings` and yields the greatest signal with the first ordering
that has it. It ends at the first ordering that fails.
-/

namespace Wordcode

/-- How the amplifiers of a circuit are wired. -/
inductive Wiring where
  /-- Each to the next. -/
  | chain
  /-- Each to the next, and the last to the first. -/
  | feedback
deriving DecidableEq, Repr

namespace Circuit

/-- Sends a signal through a circuit with the given wiring. -/
def send (fuel : Nat) (wiring : Wiring) (circuit : Circuit) (signal : Int) :
    Option (Except CircuitError Int × Circuit) :=
  match wiring with
  | .chain => circuit.runChain fuel signal
  | .feedback => circuit.runFeedback fuel signal

end Circuit

/-- A computation that may fail, collects a journal, and yields `none` if it runs out of fuel. -/
abbrev CircuitM := ExceptT CircuitError (StateT Journal Option)

/-- The result of sending a signal through a fresh circuit. -/
def amplify (fuel : Nat) (wiring : Wiring) (program phases : List Int) (signal : Int) :
    CircuitM Int :=
  ExceptT.mk fun journal =>
    match Circuit.build program phases journal with
    | .error e => some (.error e, journal)
    | .ok circuit => (circuit.send fuel wiring signal).map fun
        (result, circuit) => (result, circuit.journal)

/-- The better of two signals, the first of them if they are equal. -/
def better (best : Option (Int × List Int)) (candidate : Int × List Int) : Int × List Int :=
  match best with
  | none => candidate
  | some best => if best.1 < candidate.1 then candidate else best

/-- The greatest signal that some ordering of the phases gives, with the first such ordering. -/
def bestSignal (fuel : Nat) (wiring : Wiring) (program phases : List Int) :
    CircuitM (Int × List Int) := do
  let best ← foldOrderings (fun best ordering => do
    let signal ← amplify fuel wiring program ordering 0
    return some (better best (signal, ordering))) none phases
  match best with
  | none => throw .noPhases
  | some best => return best

end Wordcode
