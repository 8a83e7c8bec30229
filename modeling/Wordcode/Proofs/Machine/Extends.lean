import Wordcode.Proofs.Machine.Failure
import Wordcode.Proofs.Machine.Request

/-!
# Machines with more memory

Cells behind the end of a memory read as zero, and they are appended as zeros when
they are needed. So a machine does the same with zeros appended beforehand
(`Extends.step`): it is only that the host's limit is further off. Where the machine
with less memory exceeds it, nothing is said of the other (`ResultsMirror.exhausted`).
The same holds of whatever repeats steps.
-/

namespace Wordcode

namespace Memory

variable {m n : Memory} {a v : Int} {as : List Int}

/-- The memory `n` has the cells of `m`, and behind them only zeros. -/
structure Extends (m n : Memory) : Prop where
  size_le : m.size ≤ n.size
  peek : ∀ a, n.peek a = m.peek a

namespace Extends

/-- What the smaller memory has room for the other has, too. -/
theorem allows (h : m.Extends n) (ha : m.Allows a) : n.Allows a := by
  refine ⟨ha.nonneg, ?_⟩
  have hfits := ha.fits
  have hsize := h.size_le
  omega

theorem growTo (h : m.Extends n) (k : Nat) : (m.growTo k).Extends (n.growTo k) := by
  refine ⟨?_, fun a => by rw [peek_growTo, peek_growTo, h.peek]⟩
  have hsize := h.size_le
  rw [size_growTo, size_growTo]
  omega

theorem growFor (h : m.Extends n) (as : List Int) : (m.growFor as).Extends (n.growFor as) := by
  induction as generalizing m n with
  | nil => exact h
  | cons a as ih => exact ih (h.growTo _)

theorem put (h : m.Extends n) (ha : m.Allows a) (v : Int) : (m.put a v).Extends (n.put a v) := by
  refine ⟨?_, fun b => by rw [peek_put ha, peek_put (h.allows ha), h.peek]⟩
  have hsize := h.size_le
  rw [size_of_write (write_of_allows ha), size_of_write (write_of_allows (h.allows ha))]
  omega

theorem admits (h : m.Extends n) (ha : m.Admits as) : n.Admits as := by
  induction as generalizing m n with
  | nil => trivial
  | cons a as ih => exact ⟨h.allows ha.1, ih (h.growTo _) ha.2⟩

end Extends

/-- A program with zeros behind it makes a memory that extends the program's. -/
theorem extends_ofList (program : List Int) (z : Nat) :
    (ofList program).Extends (ofList (program ++ List.replicate z 0)) := by
  have hgrow : ofList (program ++ List.replicate z 0) =
      (ofList program).growTo (program.length + z) := by
    refine Memory.ext (Array.toList_inj.1 ?_)
    show (ofList _).toList = ((ofList program).growTo _).toList
    rw [toList_ofList, toList_growTo, toList_ofList, size_ofList, Nat.add_sub_cancel_left]
  rw [hgrow]
  refine ⟨?_, fun a => peek_growTo⟩
  rw [size_growTo]
  omega

/-- An access is refused for want of room, or whatever the memory. -/
theorem refusal_cases (a : Int) : refusal a = .tooLarge ∨ ∀ n : Memory, ¬ n.Allows a := by
  by_cases ha : a < 0
  · exact .inr fun n hn => Int.not_lt.2 hn.nonneg ha
  · exact .inl (if_neg ha)

end Memory

namespace Machine

variable {m n : Machine} {i : Instruction} {e : Effect} {f : Failure} {as : List Int} {a v : Int}
  {fuel : Nat}

/-- The machine `n` is `m` with zeros appended to the memory. -/
def Extends (m n : Machine) : Prop :=
  ∃ memory, m.memory.Extends memory ∧ n = { m with memory }

/-- The machines are equal, but that their memories may end at different places. -/
structure Indistinguishable (m n : Machine) : Prop where
  eq : n = { m with memory := n.memory }
  peek : ∀ a, n.memory.peek a = m.memory.peek a

namespace Extends

theorem memory (h : m.Extends n) : m.memory.Extends n.memory := by
  obtain ⟨memory, hm, rfl⟩ := h
  exact hm

theorem pc (h : m.Extends n) : n.pc = m.pc := by
  obtain ⟨memory, -, rfl⟩ := h
  rfl

theorem base (h : m.Extends n) : n.base = m.base := by
  obtain ⟨memory, -, rfl⟩ := h
  rfl

theorem inputs (h : m.Extends n) : n.inputs = m.inputs := by
  obtain ⟨memory, -, rfl⟩ := h
  rfl

theorem outputs (h : m.Extends n) : n.outputs = m.outputs := by
  obtain ⟨memory, -, rfl⟩ := h
  rfl

theorem status (h : m.Extends n) : n.status = m.status := by
  obtain ⟨memory, -, rfl⟩ := h
  rfl

theorem fault (h : m.Extends n) : n.fault = m.fault := by
  obtain ⟨memory, -, rfl⟩ := h
  rfl

theorem peek (h : m.Extends n) (a : Int) : n.memory.peek a = m.memory.peek a := h.memory.peek a

theorem indistinguishable (h : m.Extends n) : m.Indistinguishable n := by
  obtain ⟨memory, hm, rfl⟩ := h
  exact ⟨rfl, hm.peek⟩

theorem running_iff (h : m.Extends n) : n.IsRunning ↔ m.IsRunning := by
  rw [IsRunning, IsRunning, h.status]

theorem meets (h : m.Extends n) (hm : m.Meets i) : n.Meets i where
  sound := h.fault.trans hm.sound
  running := h.running_iff.2 hm.running
  reached := h.pc ▸ h.memory.allows hm.reached
  decoded := by rw [h.pc, h.peek, hm.decoded]

theorem fed (h : m.Extends n) (hi : m.Fed i) : n.Fed i := fun d hd => by
  rw [h.inputs]
  exact hi d hd

/-! ## What a step consists of -/

theorem sourceValue (h : m.Extends n) {mode : Mode} :
    n.sourceValue mode a = m.sourceValue mode a := by
  cases mode <;> simp only [Machine.sourceValue, h.peek, h.base]

theorem sourceReads (h : m.Extends n) {mode : Mode} :
    n.sourceReads mode a = m.sourceReads mode a := by
  cases mode <;> simp only [Machine.sourceReads, h.peek, h.base]

theorem target (h : m.Extends n) {mode : Destination} : n.target mode a = m.target mode a := by
  cases mode <;> simp only [Machine.target, h.peek, h.base]

/-- The effect of an instruction does not depend on where the memory ends. -/
theorem effect (h : m.Extends n) : n.effect i = m.effect i := by
  cases i <;>
    simp only [Machine.effect, h.pc, h.inputs, h.target, h.sourceReads, h.sourceValue]

theorem literalsAt (h : m.Extends n) (arity : Nat) :
    Machine.literalsAt n.memory a arity = Machine.literalsAt m.memory a arity := by
  simp only [Machine.literalsAt, h.peek]

theorem countRead (h : m.Extends n) : m.countRead.Extends n.countRead := by
  obtain ⟨memory, hm, rfl⟩ := h
  exact ⟨memory, hm, rfl⟩

theorem countWrite (h : m.Extends n) : m.countWrite.Extends n.countWrite := by
  obtain ⟨memory, hm, rfl⟩ := h
  exact ⟨memory, hm, rfl⟩

theorem touched (h : m.Extends n) : (m.touched as).Extends (n.touched as) := by
  obtain ⟨memory, hm, rfl⟩ := h
  exact ⟨memory.growFor as, hm.growFor as, rfl⟩

/-- The literals that are reported are the same. -/
theorem fetched (h : m.Extends n) : (m.fetched i).Extends (n.fetched i) := by
  have hl := h.literalsAt (a := m.pc) i.opcode.arity
  obtain ⟨memory, hm, rfl⟩ := h
  refine ⟨memory, hm, ?_⟩
  simp only [Machine.fetched, hl]
  rfl

theorem waiting (h : m.Extends n) : m.waiting.Extends n.waiting := by
  obtain ⟨memory, hm, rfl⟩ := h
  unfold Machine.waiting
  split
  · exact ⟨memory, hm, rfl⟩
  · exact ⟨memory, hm, rfl⟩

theorem taking (h : m.Extends n) : (m.taking e).Extends (n.taking e) := by
  obtain ⟨memory, hm, rfl⟩ := h
  unfold Machine.taking
  split
  · exact ⟨memory, hm, rfl⟩
  · exact ⟨memory, hm, rfl⟩

theorem writing (h : m.Extends n) (hw : ∀ a v, e.write? = some (a, v) → m.memory.Allows a) :
    (m.writing e).Extends (n.writing e) := by
  obtain ⟨memory, hm, rfl⟩ := h
  unfold Machine.writing
  split
  · exact ⟨memory, hm, rfl⟩
  · next a v he => exact ⟨memory.put a v, hm.put (hw a v he) v, rfl⟩

theorem settling (h : m.Extends n) : (m.settling e).Extends (n.settling e) := by
  obtain ⟨memory, hm, rfl⟩ := h
  exact ⟨memory, hm, rfl⟩

theorem performed (h : m.Extends n)
    (hw : ∀ a v, e.write? = some (a, v) → (m.memory.growFor e.reads).Allows a) :
    (m.performed e).Extends (n.performed e) := by
  refine (h.taking.touched.writing fun a v he => ?_).settling
  show ((m.taking e).memory.growFor e.reads).Allows a
  rw [memory_taking]
  exact hw a v he

theorem addInputs (h : m.Extends n) (values : List Int) :
    (m.addInputs values).Extends (n.addInputs values) := by
  obtain ⟨memory, hm, rfl⟩ := h
  exact ⟨memory, hm, rfl⟩

theorem setOutputs (h : m.Extends n) (outputs : Queue) :
    Extends { m with outputs } { n with outputs } := by
  obtain ⟨memory, hm, rfl⟩ := h
  exact ⟨memory, hm, rfl⟩

theorem recordFault (h : m.Extends n) (g : Fault) :
    (m.recordFault g).Extends (n.recordFault g) := by
  obtain ⟨memory, hm, rfl⟩ := h
  exact ⟨memory, hm, rfl⟩

end Extends

/-! ## Steps -/

/-- The results are the same, and leave a machine and one that extends it, unless the
first is that the host is exhausted. -/
inductive ResultsMirror {α : Type} :
    EStateM.Result Failure Machine α → EStateM.Result Failure Machine α → Prop
  | exhausted {m : Machine} {r : EStateM.Result Failure Machine α} :
    ResultsMirror (.error .memoryLimit m) r
  | ok {x : α} {m n : Machine} (h : m.Extends n) : ResultsMirror (.ok x m) (.ok x n)
  | error {f : Failure} {m n : Machine} (h : m.Extends n) :
    ResultsMirror (.error f m) (.error f n)

theorem Extends.failing (h : m.Extends n) : ResultsMirror (m.failing f) (n.failing f) := by
  cases f with
  | fault g => exact .error (h.recordFault g)
  | memoryLimit => exact .error h

/-- A step that is refused a cell is refused it with more memory too, or the host is
exhausted. -/
theorem ResultsMirror.of_refusal {r : EStateM.Result Failure Machine Status} (a : Int)
    (h : (∀ memory : Memory, ¬ memory.Allows a) →
      ResultsMirror (m.failing (.ofAccess (Memory.refusal a))) r) :
    ResultsMirror (m.failing (.ofAccess (Memory.refusal a))) r := by
  rcases Memory.refusal_cases a with ha | ha
  · rw [ha]
    exact .exhausted
  · exact h ha

/-- A machine with more memory makes the same steps. -/
theorem Extends.step (h : m.Extends n) : ResultsMirror (Machine.step m) (Machine.step n) := by
  have hr := m.stepped
  generalize Machine.step m = r at hr ⊢
  cases hr with
  | faulted hf =>
    rw [(Stepped.faulted (h.fault.trans hf)).eq]
    exact .error h
  | halted hf hs =>
    rw [(Stepped.halted (h.fault.trans hf) (h.status.trans hs)).eq, h.pc]
    exact .error h
  | unreached hf hs ha =>
    refine .of_refusal m.pc fun hno => ?_
    have hn : ¬ n.memory.Allows n.pc := h.pc ▸ hno n.memory
    rw [(Stepped.unreached (h.fault.trans hf) (h.running_iff.2 hs) hn).eq, h.pc]
    exact h.countRead.failing
  | undecoded hf hs ha hd =>
    rw [← h.peek, ← h.pc] at hd
    have hn : n.memory.Allows n.pc := h.pc ▸ h.memory.allows ha
    rw [(Stepped.undecoded (h.fault.trans hf) (h.running_iff.2 hs) hn hd).eq, h.pc, h.peek]
    exact h.touched.failing
  | starved hi hq =>
    rw [(Stepped.starved (h.meets hi) (h.inputs ▸ hq)).eq]
    exact .ok h.fetched.waiting
  | @unread i before after a hi hf he hr ha =>
    refine .of_refusal a fun hno => ?_
    rw [← h.effect] at he ⊢
    rw [(Stepped.unread (h.meets hi) (h.fed hf) he (h.memory.admits hr) (hno _)).eq]
    exact h.fetched.taking.touched.countRead.failing
  | @unwritten i a v hi hf hr hw ha =>
    refine .of_refusal a fun hno => ?_
    rw [← h.effect] at hr hw ⊢
    rw [(Stepped.unwritten (h.meets hi) (h.fed hf) (h.memory.admits hr) hw (hno _)).eq]
    exact h.fetched.taking.touched.countWrite.failing
  | @executed i hi hf hr hw =>
    have hfetched : (m.fetched i).Extends (n.fetched i) := h.fetched
    have hn : ∀ a v, (n.effect i).write? = some (a, v) →
        (n.memory.growFor (n.effect i).reads).Allows a := fun a v hav => by
      rw [h.effect] at hav ⊢
      exact (h.memory.growFor _).allows (hw a v hav)
    have hadmits : n.memory.Admits (n.effect i).reads := by
      rw [h.effect]
      exact h.memory.admits hr
    rw [(Stepped.executed (h.meets hi) (h.fed hf) hadmits hn).eq, h.effect]
    exact .ok (hfetched.performed hw)

/-! ## Runs -/

/-- The results are the same, and what is left is related by `R`. -/
def AnswersMirror {α σ τ : Type} (R : σ → τ → Prop) (p : α × σ) (q : α × τ) : Prop :=
  p.1 = q.1 ∧ R p.2 q.2

/-- The run has exhausted the host. -/
def RunExhausted {α σ : Type} (p : Except Interrupt α × σ) : Prop :=
  p.1 = .error (.failed .memoryLimit)

/-- The attempt has exhausted the host. -/
def TryExhausted (p : Outcome × Machine) : Prop := p.1 = .interrupted (.failed .memoryLimit)

theorem Extends.runRound (h : m.Extends n) :
    (Machine.runRound m).Mirrors Extends RunExhausted (AnswersMirror Extends)
      (Machine.runRound n) := by
  have hr := h.step
  unfold Machine.runRound
  generalize Machine.step m = r, Machine.step n = r' at hr
  cases hr with
  | exhausted => exact .exempt rfl
  | @ok s m n h =>
    cases s with
    | running => exact .again h
    | waiting => exact .done ⟨by rw [h.pc], h⟩
    | stopped => exact .done ⟨rfl, h⟩
  | error h => exact .done ⟨rfl, h⟩

theorem Extends.run (h : m.Extends n) (fuel : Nat) :
    Mirrors RunExhausted (AnswersMirror Extends) (m.run fuel) (n.run fuel) :=
  loop_mirrors (fun _ _ => Extends.runRound) h

theorem Extends.outputRound (h : m.Extends n) :
    (Machine.outputRound m).Mirrors Extends RunExhausted (AnswersMirror Extends)
      (Machine.outputRound n) := by
  have hr := h.step
  unfold Machine.outputRound
  rw [h.outputs]
  split
  · exact .done ⟨rfl, h.setOutputs _⟩
  · rw [h.status]
    split
    · exact .done ⟨rfl, h⟩
    · generalize Machine.step m = r, Machine.step n = r' at hr
      cases hr with
      | exhausted => exact .exempt rfl
      | @ok s m n h =>
        cases s with
        | running => exact .again h
        | waiting => exact .done ⟨by rw [h.pc], h⟩
        | stopped => exact .again h
      | error h => exact .done ⟨rfl, h⟩

theorem Extends.runUntilOutput (h : m.Extends n) (fuel : Nat) :
    Mirrors RunExhausted (AnswersMirror Extends) (m.runUntilOutput fuel) (n.runUntilOutput fuel) :=
  loop_mirrors (fun _ _ => Extends.outputRound) h

theorem Extends.tryStep (h : m.Extends n) :
    Mirrors TryExhausted (AnswersMirror Extends) (some m.tryStep) (some n.tryStep) := by
  have hr := h.step
  unfold Machine.tryStep
  generalize Machine.step m = r, Machine.step n = r' at hr
  cases hr with
  | exhausted => exact .exempt rfl
  | @ok s m n h =>
    cases s with
    | running => exact .some ⟨rfl, h⟩
    | waiting => exact .some ⟨congrArg (Outcome.interrupted <| .blocked ·) h.pc.symm, h⟩
    | stopped => exact .some ⟨rfl, h⟩
  | error h => exact .some ⟨rfl, h⟩

theorem Extends.tryRun (h : m.Extends n) (fuel : Nat) :
    Mirrors TryExhausted (AnswersMirror Extends) (m.tryRun fuel) (n.tryRun fuel) := by
  refine (h.run fuel).map (fun p hp => ?_) fun p q hpq => ?_
  · obtain ⟨r, t⟩ := p
    obtain rfl : r = .error (.failed .memoryLimit) := hp
    rfl
  · obtain ⟨r, t⟩ := p
    obtain ⟨r', u⟩ := q
    obtain ⟨hr, htu⟩ := hpq
    obtain rfl : r = r' := hr
    cases r with
    | ok => exact ⟨congrArg Outcome.progressed htu.status.symm, htu⟩
    | error interrupt => exact ⟨rfl, htu⟩

/-! ## Single cells -/

theorem Extends.readCell (h : m.Extends n) (a : Int) :
    ResultsMirror (Machine.readCell a m) (Machine.readCell a n) := by
  by_cases ha : m.memory.Allows a
  · rw [readCell_of_allows ha, readCell_of_allows (h.memory.allows ha), h.peek]
    exact .ok h.touched
  · rw [readCell_of_not_allows ha]
    rcases Memory.refusal_cases a with hr | hno
    · rw [hr]
      exact .exhausted
    · rw [readCell_of_not_allows (hno _)]
      exact .error h.countRead

theorem Extends.writeCell (h : m.Extends n) (a v : Int) :
    ResultsMirror (Machine.writeCell a v m) (Machine.writeCell a v n) := by
  by_cases ha : m.memory.Allows a
  · rw [writeCell_of_allows ha, writeCell_of_allows (h.memory.allows ha)]
    obtain ⟨memory, hm, rfl⟩ := h
    exact .ok ⟨memory.put a v, hm.put ha v, rfl⟩
  · rw [writeCell_of_not_allows ha]
    rcases Memory.refusal_cases a with hr | hno
    · rw [hr]
      exact .exhausted
    · rw [writeCell_of_not_allows (hno _)]
      exact .error h.countWrite

end Machine

end Wordcode
