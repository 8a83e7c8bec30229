import Mathlib.Algebra.GroupWithZero.Nat
import Wordcode.Proofs.Machine.Request

/-!
# What steps cost

The counters of a machine tell what its steps have done, and nothing else. What an
instruction adds to them follows from its operation and its modes
(`Instruction.readCount`, `Instruction.writeCount`): each operation makes its accesses
in its own way, but all of them are in its effect, and there they are counted once for
all operations (`counters_performed`, `length_reads_effect`). A step that waits has
only read the word at the program counter.

So after steps that do not fail the counters are those before, charged with the
instructions executed and the steps that waited (`counters_after`,
`counters_account`).
-/

namespace Wordcode

/-- The number of words that are read to execute the instruction: its own, the literals
of its parameters, and a cell for each source that is not immediate. -/
def Instruction.readCount (i : Instruction) : Nat :=
  1 + i.opcode.arity +
    i.modes.zipIdx.countP fun (mode, k) => k ∉ i.opcode.destinations ∧ mode ≠ .immediate

/-- The number of cells that are written to execute the instruction. -/
def Instruction.writeCount (i : Instruction) : Nat := i.opcode.destinations.length

/-- The counters once the given instructions are executed, and so many steps have waited. -/
def Counters.charged (c : Counters) (executed : List Instruction) (waits : Nat) : Counters where
  steps := c.steps + executed.length
  reads := c.reads + (executed.map Instruction.readCount).sum + waits
  writes := c.writes + (executed.map Instruction.writeCount).sum
  inputs := c.inputs + executed.countP (·.opcode = .input)
  outputs := c.outputs + executed.countP (·.opcode = .output)

theorem Counters.charged_charged (c : Counters) (is js : List Instruction) (v w : Nat) :
    (c.charged is v).charged js w = c.charged (is ++ js) (v + w) := by
  simp only [charged, List.length_append, List.map_append, List.sum_append, List.countP_append,
    mk.injEq]
  omega

namespace Machine

variable {m n : Machine} {i : Instruction} {e : Effect} {s : Status} {h : List Machine}

/-! ## Steps -/

/-- The instruction that a step has executed. -/
def executed? (m : Machine) : Option Instruction :=
  match step m with
  | .ok .waiting _ => none
  | .ok _ _ => m.next?
  | .error _ _ => none

theorem executed?_of_waiting (hs : step m = .ok .waiting n) : m.executed? = none := by
  simp only [executed?, hs]

theorem executed?_of_ok (hs : step m = .ok s n) (hw : s ≠ .waiting) : m.executed? = m.next? := by
  cases s with
  | waiting => exact absurd rfl hw
  | running => simp only [executed?, hs]
  | stopped => simp only [executed?, hs]

/-- What performing an effect adds to the counters. -/
theorem counters_performed : (m.performed e).counters =
    { steps := m.counters.steps + 1
      reads := m.counters.reads + e.reads.length
      writes := m.counters.writes + e.write?.toList.length
      inputs := m.counters.inputs + if e.takesInput then 1 else 0
      outputs := m.counters.outputs + e.output?.toList.length } := by
  cases ht : e.takesInput <;> cases hw : e.write? <;> cases ho : e.output? <;>
    simp [performed, settling, writing, touched, taking, countWrite, ht, hw, ho]

theorem length_sourceReads (mode : Mode) (a : Int) :
    (m.sourceReads mode a).length = 1 + if mode = .immediate then 0 else 1 := by
  cases mode <;> rfl

/-- The reads of an effect are those of the instruction, but for its own word. -/
theorem length_reads_effect : 1 + (m.effect i).reads.length = i.readCount := by
  cases i with
  | compute operation left right result =>
    simp only [effect, List.length_append, List.length_singleton, length_sourceReads]
    cases left <;> cases right <;> rfl
  | input result => rfl
  | output source =>
    simp only [effect, length_sourceReads]
    cases source <;> rfl
  | jump condition test goal =>
    simp only [effect, List.length_append, length_sourceReads]
    cases test <;> cases goal <;> rfl
  | adjustBase source =>
    simp only [effect, length_sourceReads]
    cases source <;> rfl
  | halt => rfl

theorem length_write_effect : (m.effect i).write?.toList.length = i.writeCount := by
  cases i <;> rfl

/-- An instruction that is executed is charged. -/
theorem counters_executed :
    ((m.fetched i).performed (m.effect i)).counters = m.counters.charged [i] 0 := by
  have hreads : (m.fetched i).counters.reads + (m.effect i).reads.length =
      m.counters.reads + i.readCount := by
    rw [← length_reads_effect (m := m), ← Nat.add_assoc]
    rfl
  rw [counters_performed, hreads, length_write_effect]
  cases i <;> simp [Counters.charged, effect, fetched, countRead, Instruction.opcode]

theorem counters_waiting (d : Destination) :
    (m.fetched (.input d)).waiting.counters = m.counters.charged [] 1 := by
  unfold waiting
  split <;> rfl

/-- A step that succeeds charges the instruction that it has executed, or that it waits. -/
theorem counters_after (hs : step m = .ok s n) : n.counters =
    m.counters.charged m.executed?.toList (if m.Starves then 1 else 0) := by
  rcases step_ok_cases hs with ⟨d, hm, hi, rfl, rfl⟩ | ⟨i, hm, hi, rfl, rfl⟩
  · rw [executed?_of_waiting hs, if_pos ⟨d, hm, hi⟩]
    exact counters_waiting d
  · have hw : (m.effect i).status ≠ .waiting := status_effect_ne_waiting
    rw [executed?_of_ok hs hw, hm.next?_eq, if_neg (not_starves_of_step hs hw)]
    exact counters_executed

/-! ## Histories -/

/-- The instructions that a machine with the given history has executed. -/
def executed (history : List Machine) : List Instruction := history.filterMap executed?

/-- The number of steps in a history that waited. -/
def waits (history : List Machine) : Nat := history.countP fun m => m.Starves

/-- One more step that succeeds is charged to the counters. -/
theorem counters_history {c : Counters} (hn : n.counters = c.charged (executed h) (waits h))
    (hs : ∃ s u, step n = .ok s u) :
    n.after.counters = c.charged (executed (h ++ [n])) (waits (h ++ [n])) := by
  obtain ⟨s, u, hs⟩ := hs
  have hexecuted : executed (h ++ [n]) = executed h ++ n.executed?.toList := by
    rw [executed, List.filterMap_append]
    cases he : n.executed? <;> simp [executed, he]
  have hwaits : waits (h ++ [n]) = waits h + if n.Starves then 1 else 0 := by
    simp only [waits, List.countP_append, List.countP_singleton, decide_eq_true_eq]
  rw [after_of_ok hs, counters_after hs, hn, Counters.charged_charged, hexecuted, hwaits]

/-- If no step with the given history has failed, the counters are those of that history. -/
def ChargedFor (history : List Machine) (m : Machine) : Prop :=
  (∀ t ∈ history, ∃ s u, step t = .ok s u) →
    m.counters = Counters.zero.charged (executed history) (waits history)

theorem ChargedFor.after (ha : ChargedFor h n) : ChargedFor (h ++ [n]) n.after := by
  intro hall
  obtain ⟨hall, hlast⟩ := List.forall_mem_append.1 hall
  exact counters_history (ha hall) (hlast n (List.mem_singleton.2 rfl))

/-- The counters since the last reset, after steps that have not failed. -/
theorem counters_of_respondAll {fuel : Nat} {requests : List Request} {replies : List Reply}
    (hr : m.resetCounters.respondAll fuel requests = some (replies, n))
    (hh : ∀ t ∈ m.resetCounters.history fuel requests, ∃ s u, step t = .ok s u) :
    n.counters = Counters.zero.charged (executed (m.resetCounters.history fuel requests))
      (waits (m.resetCounters.history fuel requests)) := by
  have hm : ChargedFor [] m.resetCounters := fun _ => rfl
  exact respondAll_steps (P := ChargedFor) (fun _ _ ha => ha.after) (fun _ _ _ _ ha => ha) hm hr hh

/-- A step that succeeds counts just what its instruction needs: its word, each literal
and the cell of each source that is not immediate are read, also those of a jump that is
not taken, and its destination is written; if it waits for input, only its word is read.
So since they were last reset, the counters of a machine whose steps have not failed are
the sums over the instructions executed, and each step that waited has added one read. -/
theorem counters_account (m : Machine) :
    (∀ s n, step m = .ok s n →
      (s = .waiting ∧ (∃ d, m.next? = some (.input d)) ∧ m.inputs.toList = [] ∧
        n.counters = { m.counters with reads := m.counters.reads + 1 }) ∨
      (s ≠ .waiting ∧ ∃ i, m.next? = some i ∧ n.counters =
        { steps := m.counters.steps + 1
          reads := m.counters.reads + i.readCount
          writes := m.counters.writes + i.writeCount
          inputs := m.counters.inputs + if i.opcode = .input then 1 else 0
          outputs := m.counters.outputs + if i.opcode = .output then 1 else 0 })) ∧
    ∀ fuel requests replies n, m.resetCounters.respondAll fuel requests = some (replies, n) →
      (∀ t ∈ m.resetCounters.history fuel requests, ∃ s u, step t = .ok s u) →
      n.counters =
        { steps := (executed (m.resetCounters.history fuel requests)).length
          reads := ((executed (m.resetCounters.history fuel requests)).map (·.readCount)).sum +
            waits (m.resetCounters.history fuel requests)
          writes := ((executed (m.resetCounters.history fuel requests)).map (·.writeCount)).sum
          inputs := (executed (m.resetCounters.history fuel requests)).countP (·.opcode = .input)
          outputs :=
            (executed (m.resetCounters.history fuel requests)).countP (·.opcode = .output) } := by
  refine ⟨fun s n hs => ?_, fun fuel requests replies n hr hh => ?_⟩
  · have hn := counters_after hs
    rcases step_ok_cases hs with ⟨d, hm, hi, rfl, -⟩ | ⟨i, hm, -, rfl, -⟩
    · rw [executed?_of_waiting hs, if_pos ⟨d, hm, hi⟩] at hn
      exact .inl ⟨rfl, ⟨d, hm.next?_eq⟩, hi, hn⟩
    · have hw : (m.effect i).status ≠ .waiting := status_effect_ne_waiting
      rw [executed?_of_ok hs hw, hm.next?_eq, if_neg (not_starves_of_step hs hw)] at hn
      refine .inr ⟨hw, i, hm.next?_eq, ?_⟩
      simpa [Counters.charged, List.countP_singleton] using hn
  · rw [counters_of_respondAll hr hh]
    simp only [Counters.charged, Counters.zero, Nat.zero_add]

/-- The machine has waited before its counters are reset. Then it waits once more, takes
an input, does not jump, outputs a cell and halts. -/
theorem counters_account_waiting :
    let m := (load [3, 11, 1105, 0, 7, 204, 11, 99] [] false).after
    let requests : List Request := [.tryStep, .addInputs [5], .run]
    ∃ replies n, m.resetCounters.respondAll 9 requests = some (replies, n) ∧
      n.counters =
        { steps := 4, reads := 2 + 3 + 3 + 1 + 1, writes := 1, inputs := 1, outputs := 1 } := by
  intro m requests
  have hr : (m.resetCounters.respondAll 9 requests).isSome := by decide +kernel
  have hhistory : ∀ t ∈ m.resetCounters.history 9 requests, t.executed?.isSome ∨ t.Starves := by
    decide +kernel
  have hexecuted : executed (m.resetCounters.history 9 requests) =
      [.input .position, .jump .nonzero .immediate .immediate, .output .relative, .halt] := by
    decide +kernel
  have hwaits : waits (m.resetCounters.history 9 requests) = 1 := by decide +kernel
  obtain ⟨⟨replies, n⟩, hr⟩ := Option.isSome_iff_exists.1 hr
  have hn := (counters_account m).2 9 requests replies n hr fun t ht => by
    cases hs : step t with
    | ok s u => exact ⟨s, u, rfl⟩
    | error f u =>
      rcases hhistory t ht with he | hw
      · simp only [executed?, hs] at he
        cases he
      · obtain ⟨u', hu⟩ := starves_iff.1 hw
        cases hs.symm.trans hu
  rw [hexecuted, hwaits] at hn
  exact ⟨replies, n, hr, hn⟩

end Machine

end Wordcode
