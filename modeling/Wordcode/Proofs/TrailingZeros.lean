import Wordcode.Proofs.Circuit.Padded
import Wordcode.Proofs.Machine.Dialogue

/-!
# Trailing zeros

Memory that a program does not fill reads as zero, so zeros at the end of a program
make no difference. A host that calls the machine hears the same and can see the same
of it (`dialogue_extends`), and whatever calls the program comes to the same
result with the same journal (`trailing_zeros_unobservable`).

Only the limit of the host is reached later if some of the memory is there already;
so nothing is said of calls for which the host is exhausted.
-/

namespace Wordcode

open Machine Program

/-- A program with zeros behind it cannot be told from the program itself, neither by
calls to its machine nor by what is made of it. Only that the host is exhausted may
be heard of one and not of the other. -/
theorem trailing_zeros_unobservable (p : List Int) (z fuel : Nat) :
    (∀ (inputs : List Int) (verbose : Bool) (calls : List HostCall),
      (∀ reply ∈ ((load p inputs verbose).dialogue fuel calls).1, ¬ reply.Exhausted) →
        ((load (padded p z) inputs verbose).dialogue fuel calls).1 =
            ((load p inputs verbose).dialogue fuel calls).1 ∧
          Option.Rel Indistinguishable ((load p inputs verbose).dialogue fuel calls).2
            ((load (padded p z) inputs verbose).dialogue fuel calls).2) ∧
      (∀ inputs, AgreesUnless CallError.Exhausted (call fuel p inputs)
        (call fuel (padded p z) inputs)) ∧
      (∀ noun verb, AgreesUnless CallError.Exhausted (callWith fuel p noun verb)
        (callWith fuel (padded p z) noun verb)) ∧
      (∀ target limit, AgreesUnless CallError.Exhausted (findPair fuel p target limit)
        (findPair fuel (padded p z) target limit)) ∧
      (∀ system, AgreesUnless CallError.Exhausted (diagnose fuel p system)
        (diagnose fuel (padded p z) system)) ∧
      (∀ wiring phases signal, AgreesUnless CircuitError.Exhausted
        (amplify fuel wiring p phases signal) (amplify fuel wiring (padded p z) phases signal)) ∧
      ∀ wiring phases, AgreesUnless CircuitError.Exhausted (bestSignal fuel wiring p phases)
        (bestSignal fuel wiring (padded p z) phases) := by
  have h : Padded p (padded p z) := ⟨z, rfl⟩
  exact ⟨fun inputs verbose => dialogue_extends (extends_load h inputs verbose),
    fun inputs => (runsAlike_call h fuel inputs).agrees,
    fun noun verb => (runsAlike_callWith h fuel noun verb).agrees,
    fun target limit => (runsAlike_findPair h fuel target limit).agrees,
    fun system => (runsAlike_diagnose h fuel system).agrees,
    fun wiring phases signal => (runsAlike_amplify h fuel wiring phases signal).agrees,
    fun wiring phases => (runsAlike_bestSignal h fuel wiring phases).agrees⟩

/-- The program stores its input behind its end, and outputs the cell; the zeros do
not reach as far. -/
theorem trailing_zeros_unobservable_grown :
    let calls := [.request .run, .peek 9, .readCell 12, .request .drainOutputs]
    let bare := (load [3, 9, 4, 9, 99] [7] true).dialogue 3 calls
    let extended := (load [3, 9, 4, 9, 99, 0, 0] [7] true).dialogue 3 calls
    (∀ reply ∈ bare.1, ¬ reply.Exhausted) ∧ bare.1.length = 4 ∧ extended.1 = bare.1 ∧
      Option.Rel Indistinguishable bare.2 extended.2 := by
  intro calls bare extended
  have hx : ∀ reply ∈ bare.1, ¬ reply.Exhausted := by decide +kernel
  exact ⟨hx, by decide +kernel, (trailing_zeros_unobservable _ 2 3).1 [7] true calls hx⟩

end Wordcode
