import Wordcode.Calling.Basic

/-!
# Diagnostic programs

A diagnostic program takes the number of a system as its only input. Its last output is the code it
found, and each output before that is the result of a test, 0 if the test passed.
-/

namespace Wordcode

/-- The code among the outputs of a diagnostic program, if there is one and all tests passed. -/
def diagnosticCode (outputs : List Int) : Except CallError Int :=
  match outputs.getLast? with
  | none => .error .noOutputs
  | some code =>
    match outputs.dropLast.zipIdx.find? (·.1 ≠ 0) with
    | some (result, test) => .error (.testFailed test result)
    | none => .ok code

/-- The code that a diagnostic program finds for a system. -/
def diagnose (fuel : Nat) (program : List Int) (system : Int) : CallM Int := do
  let outputs ← call fuel program [system]
  match diagnosticCode outputs with
  | .ok code => return code
  | .error e => throw e

end Wordcode
