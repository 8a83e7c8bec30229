import Wordcode.Machine.Run
import Wordcode.Program.Patch

/-!
# Calling programs

A program is called like a function: it is loaded into a fresh machine, run until it halts, and its
outputs are the result. What the machines of a call report is collected in one journal.

As with faults, the host is assumed to write the numbers in the text of a call's error.
-/

namespace Wordcode

/-- Why a call has no result. -/
inductive CallError where
  /-- The run ended before the halt instruction. -/
  | interrupted (interrupt : Interrupt)
  /-- The arguments could not be written into the program. -/
  | unpatched (error : Program.PatchError)
  /-- No pair of arguments below a limit gives the wanted result. -/
  | noPair (limit target : Int)
  /-- A diagnostic program produced no outputs. -/
  | noOutputs
  /-- A test of a diagnostic program failed. -/
  | testFailed (test : Nat) (code : Int)
deriving DecidableEq, Repr

/-- The text of the error. -/
def CallError.message : CallError → String
  | .interrupted interrupt => interrupt.message
  | .unpatched error => error.message
  | .noPair limit target => s!"No noun/verb pair below {limit} produces {target}"
  | .noOutputs => "Diagnostic produced no outputs"
  | .testFailed test code => s!"Diagnostic test {test} failed with code {code}"

/-- A computation that may fail, collects a journal, and yields `none` if it runs out of fuel. -/
abbrev CallM := ExceptT CallError (StateT Journal Option)

/-- The machine in which a program has halted. -/
def halted (fuel : Nat) (program inputs : List Int) : CallM Machine :=
  ExceptT.mk fun journal =>
    let machine := { Machine.load program inputs journal.verbose with journal }
    match machine.run fuel with
    | none => none
    | some (.ok (), m) => some (.ok m, m.journal)
    | some (.error interrupt, m) => some (.error (.interrupted interrupt), m.journal)

/-- All outputs of a program. -/
def call (fuel : Nat) (program inputs : List Int) : CallM (List Int) := do
  let m ← halted fuel program inputs
  return m.outputs.toList

end Wordcode
