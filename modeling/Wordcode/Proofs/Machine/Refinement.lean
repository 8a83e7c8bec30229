import Wordcode.Proofs.Machine.Abstract
import Wordcode.Proofs.Machine.Step

/-!
# Machines are abstract machines

A machine and an abstract machine agree if they show the same cells, registers
and queues (`Agrees`). A step of the one is then a transition of the other, with
the same fault where there is one (`Agrees.step`), unless the step accesses a
cell so far away that the memory cannot grow to it. So the two agree after any
calls (`refines_abstract_machine`).
-/

namespace Wordcode

open AbstractMachine

/-- A machine without a fault and an abstract machine that show the same. -/
structure Agrees (m : Machine) (s : AbstractMachine) : Prop where
  sound : m.fault = none
  memory : ∀ a, m.memory.peek a = s.cell a
  pc : m.pc = s.pc
  base : m.base = s.base
  inputs : m.inputs.toList = s.inputs
  outputs : m.outputs.toList = s.outputs
  status : m.status = s.status

/-- The result of a step of `m` is what a transition of `s` leads to. A step
meets the limit of the host only at a cell that the transition accesses. -/
def ResultAgrees (m : Machine) (s : AbstractMachine) :
    EStateM.Result Failure Machine Status → Prop
  | .ok status n => ∃ t, s.transition = .ok t ∧ Agrees n t ∧ status = t.status
  | .error (.fault f) _ => s.transition = .error f
  | .error .memoryLimit _ =>
    ∃ a ∈ s.transitionAccesses, Memory.growthLimit < a + 1 - m.memory.size

namespace Agrees

variable {m n : Machine} {s t : AbstractMachine} {i : Instruction} {k a v : Int}

theorem start (program inputs : List Int) (verbose : Bool) :
    Agrees (.load program inputs verbose) (.start program inputs) where
  sound := rfl
  memory a := by
    simp only [Machine.load, AbstractMachine.start, Memory.peek, Memory.ofList, cell]
    split
    · rfl
    · simp
  pc := rfl
  base := rfl
  inputs := Queue.toList_ofList
  outputs := rfl
  status := rfl

/-! ## Operands -/

theorem literal (h : Agrees m s) : m.memory.peek (m.pc + k) = s.literal k := by
  rw [h.memory, h.pc]
  rfl

theorem sourceValue (h : Agrees m s) {mode : Mode} :
    m.sourceValue mode (m.pc + k) = s.operand mode k := by
  cases mode <;> simp only [Machine.sourceValue, operand, h.literal, h.memory, h.base]

theorem target (h : Agrees m s) {mode : Destination} :
    m.target mode (m.pc + k) = s.destination mode k := by
  cases mode <;> simp only [Machine.target, destination, h.literal, h.base]

theorem sourceReads (h : Agrees m s) {mode : Mode} :
    m.sourceReads mode (m.pc + k) = s.sourceAccesses mode k := by
  cases mode <;> simp only [Machine.sourceReads, sourceAccesses, h.literal, h.base, ← h.pc]

/-- The cells that an effect reads and writes are those that the abstract
machine accesses. -/
theorem accesses (h : Agrees m s) (hi : m.Fed i) :
    (m.effect i).reads ++ ((m.effect i).write?.map Prod.fst).toList = s.accesses i := by
  cases i with
  | input d =>
    have hs : s.inputs ≠ [] := h.inputs ▸ hi d rfl
    simp [Machine.effect, AbstractMachine.accesses, destinationAccesses, h.target, ← h.pc, hs]
  | _ =>
    simp [Machine.effect, AbstractMachine.accesses, destinationAccesses, h.sourceReads, h.target,
      ← h.pc]

/-! ## Transitions -/

theorem running (h : Agrees m s) (hs : m.IsRunning) : s.status ≠ .stopped := by
  rw [← h.status]
  exact hs

theorem cell_store (ha : 0 ≤ a) {b : Int} :
    (s.store a v).cell b = if b = a then v else s.cell b := by
  simp only [cell, store]
  by_cases hb : b < 0
  · rw [if_pos hb, if_pos hb, if_neg (by omega)]
  · rw [if_neg hb, if_neg hb]
    by_cases hba : b = a
    · rw [if_pos (by rw [hba]), if_pos hba]
    · rw [if_neg (by omega), if_neg hba]

theorem transition_of_meets (h : Agrees m s) (hm : m.Meets i) :
    s.transition = match (s.accesses i).find? (· < 0) with
      | some a => .error (.negativeAddress a)
      | none => .ok (s.apply i) := by
  have hs : s.status ≠ .stopped := h.running hm.running
  have hpc : ¬ s.pc < 0 := Int.not_lt.2 (h.pc ▸ hm.reached.nonneg)
  have hd : decode (s.cell s.pc) = .ok i := by rw [← h.memory, ← h.pc, hm.decoded]
  unfold transition
  rw [if_neg hs, if_neg hpc]
  split
  · next defect he =>
    rw [hd] at he
    cases he
  · next j he =>
    rw [hd] at he
    cases he
    rfl

theorem transitionAccesses_of_meets (h : Agrees m s) (hm : m.Meets i) :
    s.transitionAccesses = s.pc :: s.accesses i := by
  have hd : decode (s.cell s.pc) = .ok i := by rw [← h.memory, ← h.pc, hm.decoded]
  simp only [transitionAccesses, hd]

theorem mem_transitionAccesses_pc : s.pc ∈ s.transitionAccesses := by
  unfold transitionAccesses
  split <;> simp

/-- A refused access of an instruction that is met: all accesses before it, at
`as`, succeed. -/
theorem result_of_refusal (h : Agrees m s) (hm : m.Meets i) {as bs : List Int}
    (hs : s.accesses i = as ++ a :: bs) (hr : m.memory.Admits as)
    (ha : ¬ (m.memory.growFor as).Allows a) :
    ResultAgrees m s (n.failing (.ofAccess (Memory.refusal a))) := by
  by_cases hn : a < 0
  · have hf : (s.accesses i).find? (· < 0) = some a := by
      rw [hs, List.find?_append, List.find?_eq_none.2 fun b hb => ?_]
      · simp [hn]
      · simpa using Memory.nonneg_of_admits hr b hb
    simp only [Memory.refusal, if_pos hn]
    show s.transition = _
    rw [h.transition_of_meets hm, hf]
  · have hl : Memory.growthLimit < a + 1 - (m.memory.growFor as).size :=
      Int.not_le.1 fun hl => ha ⟨Int.not_lt.1 hn, hl⟩
    have hsize : m.memory.size ≤ (m.memory.growFor as).size := Memory.size_le_size_growFor
    simp only [Memory.refusal, if_neg hn]
    refine ⟨a, ?_, by omega⟩
    rw [h.transitionAccesses_of_meets hm, hs]
    simp

theorem of_performed (h : Agrees m s)
    (hw : ∀ a v, (m.effect i).write? = some (a, v) →
      (m.memory.growFor (m.effect i).reads).Allows a)
    (hmemory : ∀ b,
      ((m.effect i).write?.elim (s.cell b) fun w => if b = w.1 then w.2 else s.cell b) = t.cell b)
    (hpc : (m.effect i).pc = t.pc)
    (hbase : (m.effect i).shift?.elim s.base (s.base + ·) = t.base)
    (hinputs : (if (m.effect i).takesInput then s.inputs.tail else s.inputs) = t.inputs)
    (houtputs : s.outputs ++ (m.effect i).output?.toList = t.outputs)
    (hstatus : (m.effect i).status = t.status) :
    Agrees ((m.fetched i).performed (m.effect i)) t where
  sound := by
    rw [Machine.fault_performed]
    exact h.sound
  memory b := by
    have hp : ((m.fetched i).performed (m.effect i)).memory.peek b = _ := Machine.peek_performed hw
    rw [hp, ← hmemory, ← h.memory]
    rfl
  pc := hpc
  base := by
    rw [Machine.base_performed, ← hbase, ← h.base]
    rfl
  inputs := by
    rw [Machine.toList_inputs_performed, ← hinputs, ← h.inputs]
    rfl
  outputs := by
    rw [Machine.toList_outputs_performed, ← houtputs, ← h.outputs]
    rfl
  status := hstatus

/-- The machine that an instruction leaves agrees with its row of the table. -/
theorem apply (h : Agrees m s) (hi : m.Fed i)
    (hw : ∀ a v, (m.effect i).write? = some (a, v) →
      (m.memory.growFor (m.effect i).reads).Allows a) :
    Agrees ((m.fetched i).performed (m.effect i)) (s.apply i) := by
  cases i with
  | compute operation x y z =>
    have ha : 0 ≤ s.destination z 3 := h.target ▸ (hw _ _ rfl).nonneg
    cases operation
    all_goals
      refine h.of_performed hw (fun b => ?_) ?_ rfl rfl (List.append_nil _) rfl
      · simp only [Machine.effect, Option.elim_some, h.target, h.sourceValue, Computation.apply]
        exact (cell_store ha).symm
      · exact congrArg (· + 4) h.pc
  | input z =>
    have ha : 0 ≤ s.destination z 1 := h.target ▸ (hw _ _ rfl).nonneg
    obtain ⟨v, rest, hv⟩ := List.exists_cons_of_ne_nil (h.inputs ▸ hi z rfl)
    simp only [AbstractMachine.apply, hv]
    refine h.of_performed hw (fun b => ?_) ?_ rfl ?_ (List.append_nil _) rfl
    · simp only [Machine.effect, Option.elim_some, h.target, h.inputs, hv, List.headD_cons]
      exact (cell_store ha).symm
    · exact congrArg (· + 2) h.pc
    · simp [Machine.effect, hv, goTo]
  | output x =>
    refine h.of_performed hw (fun b => rfl) ?_ rfl rfl ?_ rfl
    · exact congrArg (· + 2) h.pc
    · simp [Machine.effect, AbstractMachine.apply, goTo, h.sourceValue]
  | jump condition x y =>
    cases condition
    all_goals
      refine h.of_performed hw (fun b => rfl) ?_ rfl rfl (List.append_nil _) rfl
      simp [Machine.effect, AbstractMachine.apply, goTo, Condition.Holds, h.sourceValue, ← h.pc]
  | adjustBase x =>
    refine h.of_performed hw (fun b => rfl) ?_ ?_ rfl (List.append_nil _) rfl
    · exact congrArg (· + 2) h.pc
    · simp [Machine.effect, AbstractMachine.apply, goTo, h.sourceValue]
  | halt => exact h.of_performed hw (fun b => rfl) h.pc rfl rfl (List.append_nil _) rfl

/-- A machine that begins to wait for input still agrees. -/
theorem waiting (h : Agrees m s) : Agrees (m.fetched i).waiting { s with status := .waiting } := by
  unfold Machine.waiting
  split
  · exact ⟨h.sound, h.memory, h.pc, h.base, h.inputs, h.outputs, ‹_›⟩
  · exact ⟨h.sound, h.memory, h.pc, h.base, h.inputs, h.outputs, rfl⟩

/-- A step of a machine is a transition of an abstract machine that agrees. -/
theorem step (h : Agrees m s) : ResultAgrees m s (Machine.step m) := by
  have hr := m.stepped
  generalize Machine.step m = r at hr ⊢
  cases hr with
  | faulted hf =>
    rw [h.sound] at hf
    cases hf
  | halted _ hs =>
    show s.transition = _
    simp only [transition, if_pos (h.status ▸ hs), h.pc]
  | unreached _ hs ha =>
    by_cases hn : m.pc < 0
    · simp only [Memory.refusal, if_pos hn]
      show s.transition = _
      rw [h.pc] at hn
      simp only [transition, if_neg (h.running hs), if_pos hn, h.pc]
    · simp only [Memory.refusal, if_neg hn]
      exact ⟨s.pc, mem_transitionAccesses_pc,
        h.pc ▸ Int.not_le.1 fun hl => ha ⟨Int.not_lt.1 hn, hl⟩⟩
  | undecoded _ hs ha hd =>
    have hpc : ¬ s.pc < 0 := Int.not_lt.2 (h.pc ▸ ha.nonneg)
    rw [h.memory, h.pc] at hd
    show s.transition = _
    simp only [transition, if_neg (h.running hs), if_neg hpc, hd, h.memory, h.pc]
  | @starved d hm hi =>
    have hs : s.inputs = [] := h.inputs ▸ hi
    refine ⟨{ s with status := .waiting }, ?_, h.waiting, rfl⟩
    rw [h.transition_of_meets hm]
    simp [AbstractMachine.accesses, AbstractMachine.apply, hs]
  | @unread i before after a hm hi he hr ha =>
    have hs :
        s.accesses i = before ++ a :: (after ++ ((m.effect i).write?.map Prod.fst).toList) := by
      rw [← h.accesses hi, he, List.append_assoc, List.cons_append]
    exact h.result_of_refusal hm hs hr ha
  | @unwritten i a v hm hi hr hw ha =>
    have hs : s.accesses i = (m.effect i).reads ++ a :: [] := by
      rw [← h.accesses hi, hw]
      rfl
    exact h.result_of_refusal hm hs hr ha
  | @executed i hm hi hr hw =>
    have ha := h.apply hi hw
    refine ⟨s.apply i, ?_, ha, ha.status⟩
    have hn : (s.accesses i).find? (· < 0) = none := by
      rw [← h.accesses hi, List.find?_eq_none]
      intro a hmem
      rcases List.mem_append.1 hmem with hmem | hmem
      · simpa using Memory.nonneg_of_admits hr a hmem
      · obtain ⟨w, hw', rfl⟩ := Option.map_eq_some_iff.1 (Option.mem_toList.1 hmem)
        simpa using (hw w.1 w.2 hw').nonneg
    rw [h.transition_of_meets hm, hn]

/-- Queueing inputs keeps the agreement. -/
theorem addInputs (h : Agrees m s) (values : List Int) :
    Agrees (m.addInputs values) { s with inputs := s.inputs ++ values } where
  sound := h.sound
  memory := h.memory
  pc := h.pc
  base := h.base
  inputs := by rw [← h.inputs]; exact Queue.toList_extend
  outputs := h.outputs
  status := h.status

end Agrees

/-! ## Calls -/

/-- What calls to a machine lead to is what the same calls to an abstract
machine lead to. A call that meets the limit of the host is a step, and
accesses a cell that the memory cannot grow to. -/
def CallsAgree (m : Machine) (s : AbstractMachine) (calls : List Call) :
    EStateM.Result Failure Machine Unit → Prop
  | .ok _ n => ∃ t, s.calls calls = .ok t ∧ Agrees n t ∧ ResultAgrees n t (Machine.step n)
  | .error (.fault f) _ => s.calls calls = .error f
  | .error .memoryLimit _ => ∃ before n t, before ++ [.step] <+: calls ∧
      Machine.calls before m = .ok () n ∧ s.calls before = .ok t ∧
      ∃ a ∈ t.transitionAccesses, Memory.growthLimit < a + 1 - n.memory.size

theorem CallsAgree.cons {m n : Machine} {s t : AbstractMachine} {c : Call} {calls : List Call}
    {r : EStateM.Result Failure Machine Unit} (hm : Machine.call c m = .ok () n)
    (hs : s.call c = .ok t) (h : CallsAgree n t calls r) : CallsAgree m s (c :: calls) r := by
  have hcalls : ∀ cs, s.calls (c :: cs) = t.calls cs := fun cs => by
    simp only [AbstractMachine.calls, hs]
    rfl
  match r, h with
  | .ok _ n', ⟨t', ht, h⟩ => exact ⟨t', (hcalls _).trans ht, h⟩
  | .error (.fault f) _, h => exact (hcalls _).trans h
  | .error .memoryLimit _, ⟨before, n', t', hp, hn, ht, ha⟩ =>
    refine ⟨c :: before, n', t', ?_, ?_, (hcalls _).trans ht, ha⟩
    · exact (List.prefix_cons_inj c).2 hp
    · rw [Machine.calls, Machine.bind_of_ok hm, hn]

theorem callsAgree {m : Machine} {s : AbstractMachine} (h : Agrees m s) (calls : List Call) :
    CallsAgree m s calls (Machine.calls calls m) := by
  induction calls generalizing m s with
  | nil => exact ⟨s, rfl, h, h.step⟩
  | cons c cs ih =>
    cases c with
    | addInputs values =>
      have hm : Machine.call (.addInputs values) m = .ok () (m.addInputs values) := rfl
      rw [Machine.calls, Machine.bind_of_ok hm]
      exact (ih (h.addInputs values)).cons hm rfl
    | step =>
      have hr := h.step
      cases hm : Machine.step m with
      | ok status n =>
        rw [hm] at hr
        obtain ⟨t, ht, hn, -⟩ := hr
        have hc : Machine.call .step m = .ok () n := Machine.bind_of_ok hm
        rw [Machine.calls, Machine.bind_of_ok hc]
        exact (ih hn).cons hc ht
      | error f n =>
        rw [hm] at hr
        have hc : Machine.call .step m = .error f n := Machine.bind_of_error hm
        rw [Machine.calls, Machine.bind_of_error hc]
        cases f with
        | fault f =>
          show s.calls (.step :: cs) = _
          have ht : s.call .step = .error f := hr
          simp only [AbstractMachine.calls, ht]
          rfl
        | memoryLimit => exact ⟨[], m, s, by simp, rfl, rfl, hr⟩

/-- A machine does what the abstract machine does. -/
theorem refines_abstract_machine (program inputs : List Int) (verbose : Bool) (calls : List Call) :
    CallsAgree (.load program inputs verbose) (.start program inputs) calls
      (Machine.calls calls (.load program inputs verbose)) :=
  callsAgree (.start program inputs verbose) calls

end Wordcode
