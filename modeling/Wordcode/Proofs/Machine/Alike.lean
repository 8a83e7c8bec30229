import Wordcode.Proofs.Machine.History

/-!
# Two machines in step

Two machines that show the same cells and registers do the same as long as the
values that they take are the same: what else is queued, what was output and
what was reported plays no part (`Alike.step`).

The one trace that waiting leaves is a fetch. So one of the two may have waited
where the other had its input already: then it has read more often, and may
still be waiting where the other runs (`Alike`). This is undone by the next
instruction that is executed.
-/

namespace Wordcode

namespace Machine

variable {d : Nat} {m n a b : Machine} {i : Instruction} {e : Effect} {as : List Int}
  {x : Int} {f : Failure} {s : Status}

/-- The machines show the same but for their queues and journals, and `m` has
read `d` cells more, waiting. -/
structure Alike (d : Nat) (m a : Machine) : Prop where
  memory : m.memory = a.memory
  pc : m.pc = a.pc
  base : m.base = a.base
  fault : m.fault = a.fault
  counters : m.counters = { a.counters with reads := a.counters.reads + d }
  status : m.status = a.status ∨ m.status = .waiting ∧ a.status = .running

/-- The results are of one kind, and leave machines that are alike. -/
def ResultsAlike (d : Nat) :
    EStateM.Result Failure Machine Status → EStateM.Result Failure Machine Status → Prop
  | .ok s m, .ok t a => s = t ∧ m.status = a.status ∧ Alike d m a
  | .error f m, .error g a => f = g ∧ Alike d m a
  | _, _ => False

namespace ResultsAlike

variable {r : EStateM.Result Failure Machine Status}

theorem of_ok (h : ResultsAlike d (.ok s m) r) :
    ∃ a, r = .ok s a ∧ m.status = a.status ∧ Alike d m a := by
  cases r with
  | error f a => exact h.elim
  | ok t a =>
    obtain ⟨rfl, hs, ha⟩ := h
    exact ⟨a, rfl, hs, ha⟩

theorem of_error (h : ResultsAlike d (.error f m) r) : ∃ a, r = .error f a ∧ Alike d m a := by
  cases r with
  | ok t a => exact h.elim
  | error g a =>
    obtain ⟨rfl, ha⟩ := h
    exact ⟨a, rfl, ha⟩

end ResultsAlike

namespace Alike

theorem refl (m : Machine) : Alike 0 m m := ⟨rfl, rfl, rfl, rfl, rfl, .inl rfl⟩

theorem running_iff (h : Alike d m a) : m.IsRunning ↔ a.IsRunning := by
  rcases h.status with hs | ⟨hm, ha⟩
  · rw [IsRunning, IsRunning, hs]
  · simp [IsRunning, hm, ha]

theorem stopped_iff (h : Alike d m a) : m.status = .stopped ↔ a.status = .stopped :=
  Decidable.not_iff_not.1 h.running_iff

theorem meets_iff (h : Alike d m a) : m.Meets i ↔ a.Meets i := by
  have hf := h.fault
  have hp := h.pc
  constructor
  · rintro ⟨h1, h2, h3, h4⟩
    exact ⟨hf ▸ h1, h.running_iff.1 h2, hp ▸ h.memory ▸ h3, hp ▸ h.memory ▸ h4⟩
  · rintro ⟨h1, h2, h3, h4⟩
    exact ⟨hf ▸ h1, h.running_iff.2 h2, hp ▸ h.memory ▸ h3, hp ▸ h.memory ▸ h4⟩

/-- Queued values make no difference. -/
theorem of_inputs (h : Alike d m a) {q : Queue} : Alike d { m with inputs := q } a :=
  ⟨h.memory, h.pc, h.base, h.fault, h.counters, h.status⟩

/-! ## What a step consists of -/

theorem sourceValue (h : Alike d m a) {mode : Mode} :
    m.sourceValue mode x = a.sourceValue mode x := by
  cases mode <;> simp only [Machine.sourceValue, h.memory, h.base]

theorem sourceReads (h : Alike d m a) {mode : Mode} :
    m.sourceReads mode x = a.sourceReads mode x := by
  cases mode <;> simp only [Machine.sourceReads, h.memory, h.base]

theorem target (h : Alike d m a) {mode : Destination} : m.target mode x = a.target mode x := by
  cases mode <;> simp only [Machine.target, h.memory, h.base]

theorem countRead (h : Alike d m a) : Alike d m.countRead a.countRead where
  memory := h.memory
  pc := h.pc
  base := h.base
  fault := h.fault
  counters := by simp [Machine.countRead, h.counters, Nat.add_right_comm]
  status := h.status

theorem countWrite (h : Alike d m a) : Alike d m.countWrite a.countWrite where
  memory := h.memory
  pc := h.pc
  base := h.base
  fault := h.fault
  counters := by simp [Machine.countWrite, h.counters]
  status := h.status

theorem touched (h : Alike d m a) : Alike d (m.touched as) (a.touched as) where
  memory := by simp [Machine.touched, h.memory]
  pc := h.pc
  base := h.base
  fault := h.fault
  counters := by simp [Machine.touched, h.counters, Nat.add_right_comm]
  status := h.status

theorem fetched (h : Alike d m a) : Alike d (m.fetched i) (a.fetched i) :=
  ⟨h.memory, h.pc, h.base, h.fault, h.countRead.counters, h.status⟩

theorem taking (h : Alike d m a) : Alike d (m.taking e) (a.taking e) := by
  unfold Machine.taking
  split
  · exact ⟨h.memory, h.pc, h.base, h.fault, by simp [h.counters], h.status⟩
  · exact h

theorem writing (h : Alike d m a) : Alike d (m.writing e) (a.writing e) := by
  unfold Machine.writing
  split
  · exact h
  · exact ⟨by rw [h.memory], h.pc, h.base, h.fault, h.countWrite.counters, h.status⟩

theorem settling (h : Alike d m a) : Alike d (m.settling e) (a.settling e) where
  memory := h.memory
  pc := rfl
  base := by simp only [Machine.settling, h.base]
  fault := h.fault
  counters := by simp [Machine.settling, h.counters]
  status := .inl rfl

theorem performed (h : Alike d m a) : Alike d (m.performed e) (a.performed e) :=
  h.taking.touched.writing.settling

theorem failing (h : Alike d m a) : ResultsAlike d (m.failing f) (a.failing f) := by
  cases f with
  | fault f => exact ⟨rfl, h.memory, h.pc, h.base, rfl, h.counters, h.status⟩
  | memoryLimit => exact ⟨rfl, h⟩

/-- The values that an instruction takes determine its effect. -/
theorem effect (h : Alike d m a) (hm : m.Meets i) (ht : m.takes = a.takes) :
    m.effect i = a.effect i := by
  cases i with
  | input z =>
    have hi : m.inputs.toList.headD 0 = a.inputs.toList.headD 0 := by
      have hma : m.inputs.toList.take 1 = a.inputs.toList.take 1 := by
        simpa only [takes_of_meets hm, takes_of_meets (h.meets_iff.1 hm), Machine.effect,
          if_true] using ht
      have hh := congrArg List.head? hma
      rw [List.head?_take, List.head?_take, if_neg Nat.one_ne_zero, if_neg Nat.one_ne_zero] at hh
      rw [List.headD_eq_head?_getD, List.headD_eq_head?_getD, hh]
    simp only [Machine.effect, h.pc, h.target, hi]
  | _ => simp only [Machine.effect, h.pc, h.target, h.sourceReads, h.sourceValue]

theorem fed (h : Alike d m a) (hm : m.Meets i) (hi : m.Fed i) (ht : m.takes = a.takes) :
    a.Fed i := by
  rintro z rfl ha
  have hm' : m.takes = m.inputs.toList.take 1 := takes_of_meets hm
  have ha' : a.takes = a.inputs.toList.take 1 := takes_of_meets (h.meets_iff.1 hm)
  rw [hm', ha', ha, List.take_nil, List.take_eq_nil_iff] at ht
  rcases ht with ht | ht
  · cases ht
  · exact hi z rfl ht

/-! ## Steps -/

/-- Machines that are alike, and take the same values, get on alike. -/
theorem step (h : Alike d m a) (hm : ¬ m.Starves) (ht : m.takes = a.takes) :
    ResultsAlike d (Machine.step m) (Machine.step a) := by
  have hr := m.stepped
  generalize Machine.step m = r at hr ⊢
  cases hr with
  | faulted hf =>
    rw [(Stepped.faulted (h.fault ▸ hf)).eq]
    exact ⟨rfl, h⟩
  | halted hf hs =>
    rw [(Stepped.halted (h.fault ▸ hf) (h.stopped_iff.1 hs)).eq, h.pc]
    exact ⟨rfl, h⟩
  | unreached hf hs ha =>
    rw [h.memory, h.pc] at ha
    rw [(Stepped.unreached (h.fault ▸ hf) (h.running_iff.1 hs) ha).eq, h.pc]
    exact h.countRead.failing
  | undecoded hf hs ha hd =>
    rw [h.memory, h.pc] at ha hd
    rw [(Stepped.undecoded (h.fault ▸ hf) (h.running_iff.1 hs) ha hd).eq, h.memory, h.pc]
    exact h.touched.failing
  | starved hi he => exact absurd ⟨_, hi, he⟩ hm
  | unread hi hf he hr ha =>
    rw [h.effect hi ht] at he ⊢
    rw [h.memory] at hr ha
    rw [(Stepped.unread (h.meets_iff.1 hi) (h.fed hi hf ht) he hr ha).eq]
    exact h.fetched.taking.touched.countRead.failing
  | unwritten hi hf hr hw ha =>
    rw [h.effect hi ht] at hr hw ha ⊢
    rw [h.memory] at hr ha
    rw [(Stepped.unwritten (h.meets_iff.1 hi) (h.fed hi hf ht) hr hw ha).eq]
    exact h.fetched.taking.touched.countWrite.failing
  | executed hi hf hr hw =>
    rw [h.effect hi ht] at hr hw ⊢
    rw [h.memory] at hr hw
    rw [(Stepped.executed (h.meets_iff.1 hi) (h.fed hi hf ht) hr hw).eq]
    exact ⟨rfl, rfl, h.fetched.performed⟩

theorem next?_eq (h : Alike d m a) : m.next? = a.next? :=
  Option.ext fun i => by rw [next?_eq_some_iff, next?_eq_some_iff, h.meets_iff]

theorem starves_iff (h : Alike d m a) (hi : m.inputs.toList = a.inputs.toList) :
    m.Starves ↔ a.Starves := by
  simp only [Starves, h.meets_iff, hi]

/-- The machines send the same, too. -/
theorem sends (h : Alike d m a) (hm : ¬ m.Starves) (ht : m.takes = a.takes) :
    m.sends = a.sends := by
  have hr := h.step hm ht
  cases hs : Machine.step m with
  | error f n =>
    rw [hs] at hr
    obtain ⟨b, hb, -⟩ := hr.of_error
    rw [sends_of_error hs, sends_of_error hb]
  | ok s n =>
    rw [hs] at hr
    obtain ⟨b, hb, -⟩ := hr.of_ok
    obtain ⟨i, hi, -⟩ := step_executed_cases hs (ne_waiting_of_not_starves hm hs)
    rw [sends_of_ok hi hs, sends_of_ok (h.meets_iff.1 hi) hb, h.effect hi ht]

theorem waiting_left (h : Alike d m a) (hm : m.IsRunning) :
    Alike (d + 1) (m.fetched i).waiting a := by
  have hc : (m.fetched i).counters = { a.counters with reads := a.counters.reads + (d + 1) } := by
    show { m.counters with reads := m.counters.reads + 1 } = _
    rw [h.counters, ← Nat.add_assoc]
  have hs : Status.waiting = a.status ∨ Status.waiting = .waiting ∧ a.status = .running := by
    cases ha : a.status with
    | running => exact .inr ⟨rfl, rfl⟩
    | waiting => exact .inl rfl
    | stopped => exact absurd (h.stopped_iff.2 ha) hm
  unfold Machine.waiting
  split
  · next hw => exact ⟨h.memory, h.pc, h.base, h.fault, hc, by rwa [hw]⟩
  · exact ⟨h.memory, h.pc, h.base, h.fault, hc, hs⟩

theorem waiting (h : Alike d m a) : Alike d m.waiting a.waiting := by
  have hw : ∀ n : Machine, n.waiting = { n with
      status := .waiting
      journal := if n.status = .waiting then n.journal else n.journal.note (.blocked n.pc) } := by
    intro n
    unfold Machine.waiting
    split
    · next hn => rw [← hn]
    · rfl
  rw [hw m, hw a]
  exact ⟨h.memory, h.pc, h.base, h.fault, h.counters, .inl rfl⟩

end Alike

/-- A machine that waits for input starves. -/
theorem starves_of_waiting (h : step m = .ok .waiting n) : n.Starves := by
  obtain ⟨z, hz, hi, rfl⟩ := step_waiting_cases h
  have ha : Alike 1 (m.fetched (.input z)).waiting m := (Alike.refl m).waiting_left hz.running
  exact (ha.starves_iff (by rw [inputs_waiting]; rfl)).2 ⟨z, hz, hi⟩

/-! ## One machine trailing another -/

/-- The machines are alike. Queued at `a` are the inputs of `m` and then the
`rest`, which `m` is still to be given, and the outputs of `a` are those
`handed` out by `m` and then its own. -/
structure Trails (d : Nat) (handed rest : List Int) (m a : Machine) : Prop extends Alike d m a where
  inputs : a.inputs.toList = m.inputs.toList ++ rest
  outputs : a.outputs.toList = handed ++ m.outputs.toList

namespace Trails

variable {handed rest : List Int}

theorem takes (h : Trails d handed rest m a) (hm : ¬ m.Starves) : m.takes = a.takes := by
  simp only [Machine.takes, ← h.next?_eq]
  split
  · next z hz =>
    cases hi : m.inputs.toList with
    | nil => exact absurd ⟨z, next?_eq_some_iff.1 hz, hi⟩ hm
    | cons v vs =>
      rw [h.inputs, hi]
      rfl
  · rfl

theorem inputs_after (h : Trails d handed rest m a) (hm : ¬ m.Starves) :
    a.after.inputs.toList = m.after.inputs.toList ++ rest := by
  have ha := a.trades_step.inputs
  rw [h.inputs, ← m.trades_step.inputs, ← h.takes hm, List.append_assoc] at ha
  exact List.append_cancel_left ha

theorem outputs_after (h : Trails d handed rest m a) (hm : ¬ m.Starves) :
    a.after.outputs.toList = handed ++ m.after.outputs.toList := by
  rw [a.trades_step.outputs, m.trades_step.outputs, h.outputs, h.toAlike.sends hm (h.takes hm),
    List.append_assoc]

/-- A machine that gets on without starving does what the one that it trails
does. -/
theorem step_of_ok (h : Trails d handed rest m a) (hm : ¬ m.Starves) (hs : step m = .ok s n) :
    ∃ b, step a = .ok s b ∧ n.status = b.status ∧ Trails d handed rest n b := by
  have hr := h.step hm (h.takes hm)
  have hi := h.inputs_after hm
  have ho := h.outputs_after hm
  rw [hs] at hr
  obtain ⟨b, hb, hst, hab⟩ := hr.of_ok
  rw [after_of_ok hs, after_of_ok hb] at hi ho
  exact ⟨b, hb, hst, hab, hi, ho⟩

/-- A machine that fails does so as the one that it trails. -/
theorem step_of_error (h : Trails d handed rest m a) (hs : step m = .error f n) :
    ∃ b, step a = .error f b ∧ Trails d handed rest n b := by
  have hm : ¬ m.Starves := fun hm => by
    obtain ⟨n', hn⟩ := starves_iff.1 hm
    rw [hs] at hn
    cases hn
  have hr := h.step hm (h.takes hm)
  have hi := h.inputs_after hm
  have ho := h.outputs_after hm
  rw [hs] at hr
  obtain ⟨b, hb, hab⟩ := hr.of_error
  rw [after_of_error hs, after_of_error hb] at hi ho
  exact ⟨b, hb, hab, hi, ho⟩

/-- A machine that starves waits, and only falls behind in fetches. -/
theorem step_of_starves (h : Trails d handed rest m a) (hm : m.Starves) :
    ∃ n, step m = .ok .waiting n ∧ Trails (d + 1) handed rest n a := by
  obtain ⟨z, hz, hi⟩ := hm
  refine ⟨_, (Stepped.starved hz hi).eq, h.waiting_left hz.running, ?_, ?_⟩
  · rw [inputs_waiting]
    exact h.inputs
  · rw [outputs_waiting]
    exact h.outputs

/-- If nothing is left to be given, the machine that is trailed waits as well. -/
theorem step_of_starves_both (h : Trails d handed [] m a) (hm : m.Starves) :
    ∃ n b, step m = .ok .waiting n ∧ step a = .ok .waiting b ∧ Trails d handed [] n b := by
  have ha : a.inputs.toList = [] := by rw [h.inputs, hm.inputs, List.nil_append]
  obtain ⟨z, hz, hi⟩ := hm
  refine ⟨_, _, (Stepped.starved hz hi).eq, (Stepped.starved (h.meets_iff.1 hz) ha).eq,
    h.fetched.waiting, ?_, ?_⟩
  · rw [inputs_waiting, inputs_waiting]
    exact h.inputs
  · rw [outputs_waiting, outputs_waiting]
    exact h.outputs

/-- Some of what was left to be given is given. -/
theorem addInputs {values : List Int} (h : Trails d handed (values ++ rest) m a) :
    Trails d handed rest (m.addInputs values) a where
  toAlike := h.toAlike.of_inputs
  inputs := by
    rw [h.inputs, ← List.append_assoc]
    exact congrArg (· ++ rest) Queue.toList_extend.symm
  outputs := h.outputs

end Trails

end Machine

end Wordcode
