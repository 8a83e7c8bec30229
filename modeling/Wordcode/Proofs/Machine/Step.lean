import Wordcode.Proofs.Machine.Effect

/-!
# What a step can do

A step ends in one of eight ways, and `Stepped` lists them with the machine
that each leaves (`stepped`). All that is known of steps is derived from this
list: what a later proof needs of `step`, it gets by cases on `stepped`, and a
step of a second machine, which is in the same situation, by `Stepped.eq`.

An instruction that is met was decoded from its word, and no word that decodes
is 0. So the word stands in the memory, and fetching it grows nothing
(`Meets.growTo_eq`).
-/

namespace Wordcode

theorem decode_zero : decode 0 = .error .unknownOperation := rfl

theorem ne_zero_of_decode {word : Int} {i : Instruction} (h : decode word = .ok i) : word ≠ 0 := by
  rintro rfl
  rw [decode_zero] at h
  cases h

namespace Machine

variable {m n : Machine} {i : Instruction} {e : Effect} {as bs : List Int} {a v : Int}

/-! ## Performing an effect -/

/-- The machine that an effect leaves. -/
def performed (m : Machine) (e : Effect) : Machine :=
  (((m.taking e).touched e.reads).writing e).settling e

@[simp] theorem memory_taking : (m.taking e).memory = m.memory := by
  unfold taking
  split <;> rfl

@[simp] theorem base_taking : (m.taking e).base = m.base := by
  unfold taking
  split <;> rfl

@[simp] theorem outputs_taking : (m.taking e).outputs = m.outputs := by
  unfold taking
  split <;> rfl

@[simp] theorem fault_taking : (m.taking e).fault = m.fault := by
  unfold taking
  split <;> rfl

theorem toList_inputs_taking :
    (m.taking e).inputs.toList =
      if e.takesInput then m.inputs.toList.tail else m.inputs.toList := by
  unfold taking
  split
  · exact Queue.toList_tail
  · rfl

@[simp] theorem base_writing : (m.writing e).base = m.base := by
  unfold writing
  split <;> rfl

@[simp] theorem inputs_writing : (m.writing e).inputs = m.inputs := by
  unfold writing
  split <;> rfl

@[simp] theorem outputs_writing : (m.writing e).outputs = m.outputs := by
  unfold writing
  split <;> rfl

@[simp] theorem fault_writing : (m.writing e).fault = m.fault := by
  unfold writing
  split <;> rfl

@[simp] theorem pc_performed : (m.performed e).pc = e.pc := rfl

@[simp] theorem status_performed : (m.performed e).status = e.status := rfl

@[simp] theorem base_performed : (m.performed e).base = e.shift?.elim m.base (m.base + ·) := by
  simp [performed, settling, touched]

@[simp] theorem fault_performed : (m.performed e).fault = m.fault := by
  simp [performed, settling, touched]

theorem toList_inputs_performed : (m.performed e).inputs.toList =
    if e.takesInput then m.inputs.toList.tail else m.inputs.toList := by
  simp [performed, settling, touched, toList_inputs_taking]

theorem toList_outputs_performed :
    (m.performed e).outputs.toList = m.outputs.toList ++ e.output?.toList := by
  cases ho : e.output? <;> simp [performed, settling, touched, ho]

/-- What an effect leaves in the memory. -/
theorem peek_performed
    (hw : ∀ a v, e.write? = some (a, v) → (m.memory.growFor e.reads).Allows a) :
    (m.performed e).memory.peek a =
      e.write?.elim (m.memory.peek a) fun w => if a = w.1 then w.2 else m.memory.peek a := by
  cases he : e.write? with
  | none => simp [performed, settling, writing, touched, he]
  | some w => simp [performed, settling, writing, touched, he, Memory.peek_put (hw w.1 w.2 he)]

theorem perform_of_admits (hr : m.memory.Admits e.reads)
    (hw : ∀ a v, e.write? = some (a, v) → (m.memory.growFor e.reads).Allows a) :
    e.perform m = .ok () (m.performed e) := by
  rw [← memory_taking (e := e)] at hr
  rw [Effect.perform_eq, bind_of_ok (readCells_of_admits hr)]
  have hs : e.store ((m.taking e).touched e.reads) =
      .ok () (((m.taking e).touched e.reads).writing e) := by
    cases he : e.write? with
    | none =>
      simp only [Effect.store, writing, he]
      rfl
    | some w =>
      simp only [Effect.store, writing, he]
      refine writeCell_of_allows ?_
      show ((m.taking e).memory.growFor e.reads).Allows w.1
      rw [memory_taking]
      exact hw w.1 w.2 he
  rw [bind_of_ok hs]
  rfl

theorem perform_of_refuses_read (he : e.reads = as ++ a :: bs) (hr : m.memory.Admits as)
    (ha : ¬ (m.memory.growFor as).Allows a) :
    e.perform m =
      .error (.ofAccess (Memory.refusal a)) ((m.taking e).touched as).countRead := by
  rw [← memory_taking (e := e)] at hr ha
  rw [Effect.perform_eq, he, bind_of_error (readCells_of_refuses hr ha)]

theorem perform_of_refuses_write (hr : m.memory.Admits e.reads) (hw : e.write? = some (a, v))
    (ha : ¬ (m.memory.growFor e.reads).Allows a) :
    e.perform m =
      .error (.ofAccess (Memory.refusal a)) ((m.taking e).touched e.reads).countWrite := by
  rw [← memory_taking (e := e)] at hr ha
  have hs : e.store ((m.taking e).touched e.reads) = .error (.ofAccess (Memory.refusal a))
      ((m.taking e).touched e.reads).countWrite := by
    simp only [Effect.store, hw]
    exact writeCell_of_not_allows ha
  rw [Effect.perform_eq, bind_of_ok (readCells_of_admits hr), bind_of_error hs]

/-! ## Meeting an instruction -/

/-- A step fetches and decodes the instruction `i`. -/
structure Meets (m : Machine) (i : Instruction) : Prop where
  sound : m.fault = none
  running : m.IsRunning
  reached : m.memory.Allows m.pc
  decoded : decode (m.memory.peek m.pc) = .ok i

/-- If the instruction takes an input, there is one. -/
def Fed (m : Machine) (i : Instruction) : Prop := ∀ d, i = .input d → m.inputs.toList ≠ []

theorem Meets.growTo_eq (h : m.Meets i) : m.memory.growTo (m.pc.toNat + 1) = m.memory := by
  have hpc := Memory.lt_size_of_peek_ne_zero (ne_zero_of_decode h.decoded)
  exact Memory.growTo_of_le (by omega)

/-- The machine once the instruction is fetched and reported. -/
def fetched (m : Machine) (i : Instruction) : Machine :=
  { m.countRead with
    journal := m.journal.note
      (.executing m.pc i (literalsAt m.memory m.pc i.opcode.arity)) }

/-- The machine once it waits for input. -/
def waiting (m : Machine) : Machine :=
  if m.status = .waiting then m
  else { m with status := .waiting, journal := m.journal.note (.blocked m.pc) }

theorem reportExecution_eq : reportExecution m.pc i m = .ok ()
    { m with
      journal := m.journal.note
        (.executing m.pc i (literalsAt m.memory m.pc i.opcode.arity)) } := by
  show EStateM.Result.ok () (if m.journal.verbose then _ else _) = _
  by_cases hv : m.journal.verbose
  · rw [if_pos hv]
  · rw [if_neg hv]
    simp only [Journal.note, Event.level, hv, reduceCtorEq, or_self, if_false, Bool.false_eq_true]

theorem cycle_eq : cycle m = (do
    let word ← readCell m.pc
    match decodeAt word m.pc with
    | .error fault => throw (Failure.fault fault)
    | .ok i =>
      reportExecution m.pc i
      execute m.pc i) m := rfl

theorem cycle_of_not_allows (h : ¬ m.memory.Allows m.pc) :
    cycle m = .error (.ofAccess (Memory.refusal m.pc)) m.countRead := by
  rw [cycle_eq, bind_of_error (readCell_of_not_allows h)]

theorem cycle_of_error {d : Defect} (ha : m.memory.Allows m.pc)
    (hd : decode (m.memory.peek m.pc) = .error d) :
    cycle m = .error (.fault (.badInstruction (m.memory.peek m.pc) m.pc d)) (m.touched [m.pc]) := by
  rw [cycle_eq, bind_of_ok (readCell_of_allows ha), decodeAt, hd]
  rfl

theorem cycle_of_meets (h : m.Meets i) : cycle m = execute m.pc i (m.fetched i) := by
  have ht : m.touched [m.pc] = m.countRead := by
    simp only [touched, Memory.growFor_cons, Memory.growFor_nil, h.growTo_eq]
    rfl
  rw [cycle_eq, bind_of_ok (readCell_of_allows h.reached), decodeAt, h.decoded, ht]
  exact bind_of_ok reportExecution_eq

/-- An instruction that is met, and has an input if it takes one, is performed. -/
theorem cycle_eq_perform (h : m.Meets i) (hi : m.Fed i) :
    cycle m = (m.effect i).perform (m.fetched i) := by
  rw [cycle_of_meets h]
  show execute (m.fetched i).pc i (m.fetched i) = ((m.fetched i).effect i).perform (m.fetched i)
  exact execute_eq_perform hi

theorem cycle_of_starved {d : Destination} (h : m.Meets (.input d)) (hi : m.inputs.toList = []) :
    cycle m = .ok () (m.fetched (.input d)).waiting := by
  have ht : takeInput (m.fetched (.input d)) = .ok none (m.fetched (.input d)) := by
    have hp : (m.fetched (.input d)).inputs.pop? = none := Queue.pop?_eq_none_iff.2 hi
    simp only [takeInput, hp]
  rw [cycle_of_meets h]
  exact bind_of_ok ht

/-! ## The ways in which a step ends -/

/-- The result of a step that fails and leaves `m`. A fault is recorded. -/
def failing (m : Machine) : Failure → EStateM.Result Failure Machine Status
  | .fault f => .error (.fault f) (m.recordFault f)
  | .memoryLimit => .error .memoryLimit m

/-- The results that a step of a machine can have. -/
inductive Stepped (m : Machine) : EStateM.Result Failure Machine Status → Prop
  /-- A fault was recorded before. -/
  | faulted {f : Fault} (hf : m.fault = some f) : Stepped m (.error (.fault f) m)
  /-- The machine has halted before. -/
  | halted (hf : m.fault = none) (hs : m.status = .stopped) :
    Stepped m (.error (.fault (.alreadyHalted m.pc)) m)
  /-- There is no cell at the program counter. -/
  | unreached (hf : m.fault = none) (hs : m.IsRunning) (ha : ¬ m.memory.Allows m.pc) :
    Stepped m (m.countRead.failing (.ofAccess (Memory.refusal m.pc)))
  /-- The word at the program counter is no instruction. -/
  | undecoded {d : Defect} (hf : m.fault = none) (hs : m.IsRunning) (ha : m.memory.Allows m.pc)
    (hd : decode (m.memory.peek m.pc) = .error d) :
    Stepped m ((m.touched [m.pc]).failing
      (.fault (.badInstruction (m.memory.peek m.pc) m.pc d)))
  /-- The instruction takes an input, and there is none. -/
  | starved {d : Destination} (h : m.Meets (.input d)) (hi : m.inputs.toList = []) :
    Stepped m (.ok .waiting (m.fetched (.input d)).waiting)
  /-- There is no cell at the address `a`, which is to be read. -/
  | unread {i : Instruction} {before after : List Int} {a : Int} (h : m.Meets i) (hi : m.Fed i)
    (he : (m.effect i).reads = before ++ a :: after) (hr : m.memory.Admits before)
    (ha : ¬ (m.memory.growFor before).Allows a) :
    Stepped m ((((m.fetched i).taking (m.effect i)).touched before).countRead.failing
      (.ofAccess (Memory.refusal a)))
  /-- There is no cell at the address `a`, which is to be written. -/
  | unwritten {i : Instruction} {a v : Int} (h : m.Meets i) (hi : m.Fed i)
    (hr : m.memory.Admits (m.effect i).reads) (hw : (m.effect i).write? = some (a, v))
    (ha : ¬ (m.memory.growFor (m.effect i).reads).Allows a) :
    Stepped m ((((m.fetched i).taking (m.effect i)).touched (m.effect i).reads).countWrite.failing
      (.ofAccess (Memory.refusal a)))
  /-- The instruction is executed. -/
  | executed {i : Instruction} (h : m.Meets i) (hi : m.Fed i)
    (hr : m.memory.Admits (m.effect i).reads)
    (hw : ∀ a v, (m.effect i).write? = some (a, v) →
      (m.memory.growFor (m.effect i).reads).Allows a) :
    Stepped m (.ok (m.effect i).status ((m.fetched i).performed (m.effect i)))

theorem step_of_cycle_error {f : Failure} (hf : m.fault = none) (hs : m.IsRunning)
    (h : cycle m = .error f n) : step m = n.failing f := by
  simp only [step, hf, if_neg hs, h]
  cases f <;> rfl

theorem step_of_cycle_ok (hf : m.fault = none) (hs : m.IsRunning) (h : cycle m = .ok () n) :
    step m = .ok n.status n := by
  simp only [step, hf, if_neg hs, h]

/-- A step has no other result than its situation gives it. -/
theorem Stepped.eq {r : EStateM.Result Failure Machine Status} (h : Stepped m r) : step m = r := by
  cases h with
  | faulted hf => simp only [step, hf]
  | halted hf hs => simp only [step, hf, hs, if_true]
  | unreached hf hs ha => exact step_of_cycle_error hf hs (cycle_of_not_allows ha)
  | undecoded hf hs ha hd => exact step_of_cycle_error hf hs (cycle_of_error ha hd)
  | starved h hi =>
    rw [step_of_cycle_ok h.sound h.running (cycle_of_starved h hi)]
    congr 1
    unfold waiting
    split
    · assumption
    · rfl
  | unread h hi he hr ha =>
    refine step_of_cycle_error h.sound h.running ?_
    rw [cycle_eq_perform h hi]
    exact perform_of_refuses_read he hr ha
  | unwritten h hi hr hw ha =>
    refine step_of_cycle_error h.sound h.running ?_
    rw [cycle_eq_perform h hi]
    exact perform_of_refuses_write hr hw ha
  | executed h hi hr hw =>
    have hc := (cycle_eq_perform h hi).trans (perform_of_admits hr hw)
    rw [step_of_cycle_ok h.sound h.running hc]
    rfl

/-- The result of a step is one of those listed. -/
theorem stepped (m : Machine) : Stepped m (step m) := by
  suffices h : ∃ r, Stepped m r by
    obtain ⟨r, h⟩ := h
    rwa [h.eq]
  cases hf : m.fault with
  | some f => exact ⟨_, .faulted hf⟩
  | none =>
    by_cases hs : m.status = .stopped
    · exact ⟨_, .halted hf hs⟩
    by_cases ha : m.memory.Allows m.pc
    · cases hd : decode (m.memory.peek m.pc) with
      | error d => exact ⟨_, .undecoded hf hs ha hd⟩
      | ok i =>
        have h : m.Meets i := ⟨hf, hs, ha, hd⟩
        by_cases hi : m.Fed i
        · rcases m.memory.admits_or_refuses (m.effect i).reads with
            hr | ⟨before, b, after, he, hr, hb⟩
          · cases hw : (m.effect i).write? with
            | none => exact ⟨_, .executed h hi hr (by simp [hw])⟩
            | some w =>
              by_cases hb : (m.memory.growFor (m.effect i).reads).Allows w.1
              · refine ⟨_, .executed h hi hr fun a v hav => ?_⟩
                rw [hw] at hav
                cases hav
                exact hb
              · exact ⟨_, .unwritten h hi hr hw hb⟩
          · exact ⟨_, .unread h hi he hr hb⟩
        · simp only [Fed, Classical.not_forall, Decidable.not_not] at hi
          obtain ⟨d, rfl, hi⟩ := hi
          exact ⟨_, .starved h hi⟩
    · exact ⟨_, .unreached hf hs ha⟩

theorem failing_ne_ok {f : Failure} {s : Status} : n.failing f ≠ .ok s m := by
  cases f <;> exact nofun

theorem status_effect_ne_waiting : (m.effect i).status ≠ .waiting := by
  cases i <;> exact nofun

/-- A step that succeeds waits for input or has executed an instruction. -/
theorem step_ok_cases {s : Status} (h : step m = .ok s n) :
    (∃ d, m.Meets (.input d) ∧ m.inputs.toList = [] ∧ s = .waiting ∧
      n = (m.fetched (.input d)).waiting) ∨
    (∃ i, m.Meets i ∧ m.Fed i ∧ s = (m.effect i).status ∧
      n = (m.fetched i).performed (m.effect i)) := by
  have hr := m.stepped
  rw [h] at hr
  generalize ho : EStateM.Result.ok s n = r at hr
  cases hr with
  | faulted => cases ho
  | halted => cases ho
  | unreached => exact absurd ho.symm failing_ne_ok
  | undecoded => exact absurd ho.symm failing_ne_ok
  | unread => exact absurd ho.symm failing_ne_ok
  | unwritten => exact absurd ho.symm failing_ne_ok
  | starved hm hi =>
    cases ho
    exact .inl ⟨_, hm, hi, rfl, rfl⟩
  | executed hm hi =>
    cases ho
    exact .inr ⟨_, hm, hi, rfl, rfl⟩

theorem running_of_step {s : Status} (h : step m = .ok s n) : m.IsRunning := by
  rcases step_ok_cases h with ⟨_, hm, -⟩ | ⟨_, hm, -⟩
  · exact hm.running
  · exact hm.running

/-- A step that waits has found an input instruction and no input. -/
theorem step_waiting_cases (h : step m = .ok .waiting n) :
    ∃ d, m.Meets (.input d) ∧ m.inputs.toList = [] ∧ n = (m.fetched (.input d)).waiting := by
  rcases step_ok_cases h with ⟨d, hm, hi, -, hn⟩ | ⟨i, -, -, hs, -⟩
  · exact ⟨d, hm, hi, hn⟩
  · exact absurd hs.symm status_effect_ne_waiting

theorem step_executed_cases {s : Status} (h : step m = .ok s n) (hw : s ≠ .waiting) :
    ∃ i, m.Meets i ∧ m.Fed i ∧ s = (m.effect i).status ∧
      n = (m.fetched i).performed (m.effect i) := by
  rcases step_ok_cases h with ⟨d, -, -, hs, -⟩ | h
  · exact absurd hs hw
  · exact h

end Machine

end Wordcode
