import Wordcode.Proofs.Machine.Run

/-!
# Outputs that are not handed out

Whether a host takes the outputs of a machine at once or later makes no
difference to what the machine does. A machine with more outputs queued, which
the host has not taken yet (`withhold`), makes the same steps and runs, and these
outputs stay in front of all others (`step_withhold`, `tryRun_withhold`). Nothing
else tells the machines apart: they also report the same.
-/

namespace Wordcode

namespace Machine

variable {fuel : Nat} {m : Machine} {vs : List Int} {v : Int} {i : Instruction} {e : Effect}
  {f : Failure} {q : Queue}

/-- The machine with more outputs that are not handed out, older than all others. -/
def withhold (m : Machine) (vs : List Int) : Machine :=
  { m with outputs := .ofList (vs ++ m.outputs.toList) }

/-- The machine once all its outputs are handed out. -/
def drained (m : Machine) : Machine := { m with outputs := ∅ }

theorem toList_outputs_withhold : (m.withhold vs).outputs.toList = vs ++ m.outputs.toList :=
  Queue.toList_ofList

@[simp] theorem withhold_nil : m.withhold [] = m := by
  have hq : Queue.ofList m.outputs.toList = m.outputs := Queue.ext Queue.toList_ofList
  simp only [withhold, List.nil_append, hq]

/-- A machine is itself, once its outputs are handed out, with these withheld. -/
theorem withhold_drained : m.drained.withhold m.outputs.toList = m := by
  have hq : Queue.ofList m.outputs.toList = m.outputs := Queue.ext Queue.toList_ofList
  simp only [withhold, drained, Queue.toList_empty, List.append_nil, hq]

theorem drained_of_nil (h : m.outputs.toList = []) : m.drained = m := by
  have hq : m.outputs = ∅ := Queue.ext h
  simp only [drained, ← hq]

/-- A value that is taken from the outputs was withheld. -/
theorem withhold_of_pop (h : m.outputs.pop? = some (v, q)) :
    { m with outputs := q }.withhold [v] = m := by
  have hq : Queue.ofList ([v] ++ q.toList) = m.outputs := by
    refine Queue.ext ?_
    rw [Queue.toList_ofList, Queue.pop?_eq_some_iff.1 h]
    rfl
  simp only [withhold, hq]

/-! ## Steps -/

/-- What a step comes to with outputs withheld. -/
def withholdResult (vs : List Int) :
    EStateM.Result Failure Machine Status → EStateM.Result Failure Machine Status
  | .ok s n => .ok s (n.withhold vs)
  | .error f n => .error f (n.withhold vs)

theorem Meets.withhold (h : m.Meets i) (vs : List Int) : (m.withhold vs).Meets i :=
  ⟨h.sound, h.running, h.reached, h.decoded⟩

@[simp] theorem effect_withhold (vs : List Int) : (m.withhold vs).effect i = m.effect i := by
  cases i <;> rfl

@[simp] theorem countRead_withhold : (m.withhold vs).countRead = m.countRead.withhold vs := rfl

@[simp] theorem countWrite_withhold : (m.withhold vs).countWrite = m.countWrite.withhold vs := rfl

@[simp] theorem touched_withhold {as : List Int} :
    (m.withhold vs).touched as = (m.touched as).withhold vs := rfl

@[simp] theorem fetched_withhold : (m.withhold vs).fetched i = (m.fetched i).withhold vs := rfl

@[simp] theorem taking_withhold : (m.withhold vs).taking e = (m.taking e).withhold vs := by
  unfold taking
  split <;> rfl

@[simp] theorem writing_withhold : (m.withhold vs).writing e = (m.writing e).withhold vs := by
  unfold writing
  split <;> rfl

@[simp] theorem settling_withhold : (m.withhold vs).settling e = (m.settling e).withhold vs := by
  have hq : e.output?.elim (m.withhold vs).outputs (m.withhold vs).outputs.push =
      ((m.settling e).withhold vs).outputs := by
    refine Queue.ext ?_
    rw [toList_outputs_withhold]
    cases ho : e.output? <;> simp [settling, ho, toList_outputs_withhold]
  unfold settling at hq ⊢
  rw [hq]
  rfl

@[simp] theorem performed_withhold : (m.withhold vs).performed e = (m.performed e).withhold vs := by
  simp only [performed, taking_withhold, touched_withhold, writing_withhold, settling_withhold]

@[simp] theorem waiting_withhold : (m.withhold vs).waiting = m.waiting.withhold vs := by
  unfold waiting
  split
  · next h => rw [if_pos (show m.status = .waiting from h)]
  · next h =>
    rw [if_neg (show ¬ m.status = .waiting from h)]
    rfl

@[simp] theorem failing_withhold : (m.withhold vs).failing f = withholdResult vs (m.failing f) := by
  cases f <;> rfl

/-- A step does not depend on what is withheld. -/
theorem step_withhold : step (m.withhold vs) = withholdResult vs (step m) := by
  have hr := m.stepped
  generalize step m = r at hr ⊢
  cases hr with
  | faulted hf => exact (Stepped.faulted (m := m.withhold vs) hf).eq
  | halted hf hs => exact (Stepped.halted (m := m.withhold vs) hf hs).eq
  | unreached hf hs ha =>
    rw [← failing_withhold]
    exact (Stepped.unreached (m := m.withhold vs) hf hs ha).eq
  | undecoded hf hs ha hd =>
    rw [← failing_withhold]
    exact (Stepped.undecoded (m := m.withhold vs) hf hs ha hd).eq
  | starved h hi =>
    rw [(Stepped.starved (h.withhold vs) hi).eq, fetched_withhold, waiting_withhold]
    rfl
  | unread h hi he hr ha =>
    rw [← effect_withhold vs] at he
    rw [(Stepped.unread (h.withhold vs) hi he hr ha).eq, ← failing_withhold]
    simp only [effect_withhold, fetched_withhold, taking_withhold, touched_withhold,
      countRead_withhold]
  | unwritten h hi hr hw ha =>
    rw [← effect_withhold vs] at hr hw ha
    rw [(Stepped.unwritten (h.withhold vs) hi hr hw ha).eq, ← failing_withhold]
    simp only [effect_withhold, fetched_withhold, taking_withhold, touched_withhold,
      countWrite_withhold]
  | executed h hi hr hw =>
    rw [← effect_withhold vs] at hr hw
    rw [(Stepped.executed (h.withhold vs) hi hr hw).eq, effect_withhold, fetched_withhold,
      performed_withhold]
    rfl

theorem tryStep_withhold : (m.withhold vs).tryStep = (m.tryStep.1, m.tryStep.2.withhold vs) := by
  have hr : step (m.withhold vs) = withholdResult vs (step m) := step_withhold
  cases hs : step m with
  | error f n =>
    rw [hs] at hr
    rw [tryStep_of_error hs, tryStep_of_error hr]
  | ok s n =>
    rw [hs] at hr
    by_cases hw : s = .waiting
    · subst hw
      rw [tryStep_of_waiting hs, tryStep_of_waiting hr]
      rfl
    · rw [tryStep_of_ok hs hw, tryStep_of_ok hr hw]

/-- Machines that only differ in their outputs make the same step, and then only differ
in their outputs again. -/
theorem tryStep_of_drained_eq {n : Machine} (h : m.drained = n.drained) :
    m.tryStep.1 = n.tryStep.1 ∧ m.after.drained = n.after.drained := by
  have hstep : ∀ m : Machine, m.tryStep =
      (m.drained.tryStep.1, m.drained.tryStep.2.withhold m.outputs.toList) := fun m => by
    rw [← tryStep_withhold, withhold_drained]
  rw [← tryStep_snd, ← tryStep_snd, hstep m, hstep n, h]
  exact ⟨rfl, rfl⟩

/-- A run does not depend on what is withheld. -/
theorem tryRun_withhold : (m.withhold vs).tryRun fuel =
    (m.tryRun fuel).map fun p => (p.1, p.2.withhold vs) := by
  induction fuel generalizing m with
  | zero => rfl
  | succ fuel ih =>
    rcases m.running_or_ends with ⟨n, hs⟩ | he
    · have hr : step (m.withhold vs) = .ok .running (n.withhold vs) := by
        rw [step_withhold, hs]
        rfl
      rw [tryRun_succ_of_running hs, tryRun_succ_of_running hr, ih]
    · have hr : (m.withhold vs).tryStep.1 ≠ .progressed .running := by rwa [tryStep_withhold]
      rw [tryRun_succ he, tryRun_succ hr, tryStep_withhold]
      rfl

end Machine

end Wordcode
