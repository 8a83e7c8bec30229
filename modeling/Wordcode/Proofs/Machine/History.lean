import Wordcode.Proofs.Machine.Step

/-!
# Histories

A machine does not keep the inputs that it has taken, nor the outputs that were
handed out. Its history does: the machine as each step found it, from the first
step to the last. What a step takes and sends is seen from the instruction that
it executes (`takes`, `sends`), and what it takes is what it removes from the
one queue, what it sends what it adds to the other (`trades_step`).
-/

namespace Wordcode

namespace Machine

variable {m n : Machine} {i : Instruction} {s : Status} {f : Failure}

/-- The instruction that a step executes, if it comes to execute one. -/
def next? (m : Machine) : Option Instruction :=
  if m.fault = none ∧ m.IsRunning ∧ m.memory.Allows m.pc then
    match decode (m.memory.peek m.pc) with
    | .error _ => none
    | .ok i => some i
  else none

theorem next?_eq_some_iff : m.next? = some i ↔ m.Meets i := by
  constructor
  · intro h
    simp only [next?] at h
    split at h
    · next hm =>
      split at h
      · cases h
      · next j hd =>
        cases h
        exact ⟨hm.1, hm.2.1, hm.2.2, hd⟩
    · cases h
  · intro h
    simp only [next?, if_pos (And.intro h.sound (And.intro h.running h.reached)), h.decoded]

theorem Meets.next?_eq (h : m.Meets i) : m.next? = some i := next?_eq_some_iff.2 h

/-- The values that a step takes from the inputs. -/
def takes (m : Machine) : List Int :=
  match m.next? with
  | some (.input _) => m.inputs.toList.take 1
  | _ => []

/-- The values that a step adds to the outputs. -/
def sends (m : Machine) : List Int :=
  match m.next?, step m with
  | some (.output mode), .ok _ _ => [m.sourceValue mode (m.pc + 1)]
  | _, _ => []

/-- The machine that a result leaves. -/
def left : EStateM.Result Failure Machine Status → Machine
  | .ok _ n => n
  | .error _ n => n

/-- The machine after a step, also if the step failed. -/
def after (m : Machine) : Machine := left (step m)

theorem after_of_ok (h : step m = .ok s n) : m.after = n := by
  rw [after, h]
  rfl

theorem after_of_error (h : step m = .error f n) : m.after = n := by
  rw [after, h]
  rfl

@[simp] theorem inputs_waiting : m.waiting.inputs = m.inputs := by
  unfold waiting
  split <;> rfl

@[simp] theorem outputs_waiting : m.waiting.outputs = m.outputs := by
  unfold waiting
  split <;> rfl

theorem takes_of_meets (h : m.Meets i) :
    m.takes = if (m.effect i).takesInput then m.inputs.toList.take 1 else [] := by
  simp only [takes, h.next?_eq]
  cases i <;> rfl

theorem takes_of_not_meets (h : ∀ i, ¬ m.Meets i) : m.takes = [] := by
  have hn : m.next? = none :=
    Option.eq_none_iff_forall_ne_some.2 fun i hi => h i (next?_eq_some_iff.1 hi)
  simp only [takes, hn]

theorem sends_of_ok (h : m.Meets i) (hs : step m = .ok s n) :
    m.sends = (m.effect i).output?.toList := by
  simp only [sends, h.next?_eq, hs]
  cases i <;> rfl

theorem sends_of_error (hs : step m = .error f n) : m.sends = [] := by
  simp only [sends, hs]
  split
  · next h => cases h
  · rfl

theorem sends_of_failing (hs : step m = n.failing f) : m.sends = [] := by
  cases f with
  | fault f => exact sends_of_error hs
  | memoryLimit => exact sends_of_error hs

theorem sends_of_waiting (hs : step m = .ok .waiting n) : m.sends = [] := by
  obtain ⟨d, h, -⟩ := step_waiting_cases hs
  rw [sends_of_ok h hs]
  rfl

theorem sends_of_stopped (hs : step m = .ok .stopped n) : m.sends = [] := by
  obtain ⟨i, h, -, hst, -⟩ := step_executed_cases hs nofun
  rw [sends_of_ok h hs]
  cases i with
  | halt => rfl
  | _ => cases hst

/-! ## Taking and sending -/

/-- Between `m` and `n` the values `ts` were taken and `ss` sent: they are
missing from the inputs, added to the outputs, and counted. -/
structure Trades (m n : Machine) (ts ss : List Int) : Prop where
  inputs : ts ++ n.inputs.toList = m.inputs.toList
  outputs : n.outputs.toList = m.outputs.toList ++ ss
  taken : n.counters.inputs = m.counters.inputs + ts.length
  sent : n.counters.outputs = m.counters.outputs + ss.length

namespace Trades

variable {o : Machine} {ts us ss vs : List Int}

theorem same (hi : n.inputs = m.inputs) (ho : n.outputs = m.outputs)
    (ht : n.counters.inputs = m.counters.inputs) (hs : n.counters.outputs = m.counters.outputs) :
    Trades m n [] [] :=
  ⟨by rw [hi]; rfl, by rw [ho, List.append_nil], ht, hs⟩

theorem refl (m : Machine) : Trades m m [] [] := .same rfl rfl rfl rfl

theorem trans (h : Trades m n ts ss) (h' : Trades n o us vs) :
    Trades m o (ts ++ us) (ss ++ vs) where
  inputs := by rw [List.append_assoc, h'.inputs, h.inputs]
  outputs := by rw [h'.outputs, h.outputs, List.append_assoc]
  taken := by rw [h'.taken, h.taken, List.length_append, Nat.add_assoc]
  sent := by rw [h'.sent, h.sent, List.length_append, Nat.add_assoc]

theorem failing (h : Trades m n ts ss) : Trades m (left (n.failing f)) ts ss := by
  cases f with
  | fault f => exact ⟨h.inputs, h.outputs, h.taken, h.sent⟩
  | memoryLimit => exact h

end Trades

theorem trades_waiting : Trades m m.waiting [] [] := by
  unfold waiting
  split
  · exact .refl m
  · exact .same rfl rfl rfl rfl

theorem trades_taking (h : m.Meets i) (hi : m.Fed i) :
    Trades m ((m.fetched i).taking (m.effect i)) m.takes [] := by
  rw [takes_of_meets h]
  cases i with
  | input d =>
    obtain ⟨v, vs, hv⟩ := List.exists_cons_of_ne_nil (hi d rfl)
    refine ⟨?_, (List.append_nil _).symm, ?_, rfl⟩
    · show m.inputs.toList.take 1 ++ m.inputs.tail.toList = _
      rw [Queue.toList_tail, hv]
      rfl
    · show m.counters.inputs + 1 = m.counters.inputs + (m.inputs.toList.take 1).length
      rw [hv]
      rfl
  | _ => exact .same rfl rfl rfl rfl

theorem trades_writing (m : Machine) (e : Effect) : Trades m (m.writing e) [] [] := by
  unfold writing
  split
  · exact .refl m
  · exact .same rfl rfl rfl rfl

theorem trades_settling (m : Machine) (e : Effect) :
    Trades m (m.settling e) [] e.output?.toList where
  inputs := rfl
  outputs := by cases ho : e.output? <;> simp [settling, ho]
  taken := rfl
  sent := by cases ho : e.output? <;> simp [settling, ho]

theorem trades_performed (h : m.Meets i) (hi : m.Fed i) :
    Trades m ((m.fetched i).performed (m.effect i)) m.takes (m.effect i).output?.toList := by
  have ht : Trades ((m.fetched i).taking (m.effect i))
      (((m.fetched i).taking (m.effect i)).touched (m.effect i).reads) [] [] :=
    .same rfl rfl rfl rfl
  have hw := ((trades_taking h hi).trans ht).trans (trades_writing _ (m.effect i))
  have hp := hw.trans (trades_settling _ (m.effect i))
  rw [List.append_nil, List.append_nil, List.append_nil] at hp
  exact hp

/-- A step takes and sends just that. -/
theorem trades_step (m : Machine) : Trades m m.after m.takes m.sends := by
  have hr := m.stepped
  rw [after]
  generalize hs : step m = r at hr ⊢
  cases hr with
  | faulted hf =>
    rw [takes_of_not_meets fun i h => by simp [h.sound] at hf, sends_of_error hs]
    exact .refl m
  | halted _ hst =>
    rw [takes_of_not_meets fun i h => h.running hst, sends_of_error hs]
    exact .refl m
  | unreached _ _ ha =>
    rw [takes_of_not_meets fun i h => ha h.reached, sends_of_failing hs]
    have hc : Trades m m.countRead [] [] := .same rfl rfl rfl rfl
    exact hc.failing
  | undecoded _ _ _ hd =>
    rw [takes_of_not_meets fun i h => by simp [h.decoded] at hd, sends_of_failing hs]
    have ht : Trades m (m.touched [m.pc]) [] [] := .same rfl rfl rfl rfl
    exact ht.failing
  | @starved d h hi =>
    have ht : m.takes = [] := by
      rw [takes_of_meets h, hi]
      rfl
    rw [ht, sends_of_waiting hs]
    have hf : Trades m (m.fetched (.input d)) [] [] := .same rfl rfl rfl rfl
    exact hf.trans trades_waiting
  | @unread i before after a h hi =>
    rw [sends_of_failing hs]
    have ht :
        Trades m (((m.fetched i).taking (m.effect i)).touched before).countRead m.takes [] := by
      have hc := trades_taking h hi
      exact ⟨hc.inputs, hc.outputs, hc.taken, hc.sent⟩
    exact ht.failing
  | @unwritten i a v h hi =>
    rw [sends_of_failing hs]
    have ht : Trades m (((m.fetched i).taking (m.effect i)).touched (m.effect i).reads).countWrite
        m.takes [] := by
      have hc := trades_taking h hi
      exact ⟨hc.inputs, hc.outputs, hc.taken, hc.sent⟩
    exact ht.failing
  | executed h hi =>
    rw [sends_of_ok h hs]
    exact trades_performed h hi

/-! ## Waiting -/

/-- A step finds an input instruction and no input. -/
def Starves (m : Machine) : Prop := ∃ d, m.Meets (.input d) ∧ m.inputs.toList = []

theorem Starves.inputs (h : m.Starves) : m.inputs.toList = [] := by
  obtain ⟨_, -, h⟩ := h
  exact h

/-- A step waits for input exactly on a machine that starves. -/
theorem starves_iff : m.Starves ↔ ∃ n, step m = .ok .waiting n := by
  constructor
  · rintro ⟨d, h, hi⟩
    exact ⟨_, (Stepped.starved h hi).eq⟩
  · rintro ⟨n, hn⟩
    obtain ⟨d, h, hi, -⟩ := step_waiting_cases hn
    exact ⟨d, h, hi⟩

theorem not_starves_of_step (hs : step m = .ok s n) (hw : s ≠ .waiting) : ¬ m.Starves := by
  rw [starves_iff]
  rintro ⟨u, hu⟩
  cases hs.symm.trans hu
  exact hw rfl

theorem starves_iff_next? : m.Starves ↔
    m.next?.map Instruction.opcode = some .input ∧ m.inputs.toList = [] := by
  constructor
  · rintro ⟨d, h, hi⟩
    exact ⟨by rw [h.next?_eq]; rfl, hi⟩
  · rintro ⟨ho, hi⟩
    obtain ⟨i, hn, ho⟩ := Option.map_eq_some_iff.1 ho
    cases i with
    | input d => exact ⟨d, next?_eq_some_iff.1 hn, hi⟩
    | _ => cases ho

instance : Decidable m.Starves := decidable_of_iff' _ starves_iff_next?

theorem ne_waiting_of_not_starves (hm : ¬ m.Starves) (hs : step m = .ok s n) : s ≠ .waiting := by
  rintro rfl
  exact hm (starves_iff.2 ⟨n, hs⟩)

theorem status_waiting : m.waiting.status = .waiting := by
  unfold waiting
  split
  · assumption
  · rfl

theorem status_eq_of_step (h : step m = .ok s n) : n.status = s := by
  rcases step_ok_cases h with ⟨d, -, -, rfl, rfl⟩ | ⟨i, -, -, rfl, rfl⟩
  · exact status_waiting
  · rfl

theorem steps_of_waiting (h : step m = .ok .waiting n) : n.counters.steps = m.counters.steps := by
  obtain ⟨d, -, -, rfl⟩ := step_waiting_cases h
  unfold waiting
  split <;> rfl

theorem steps_of_executed (h : step m = .ok s n) (hs : s ≠ .waiting) :
    n.counters.steps = m.counters.steps + 1 := by
  obtain ⟨i, -, -, -, rfl⟩ := step_executed_cases h hs
  simp only [performed, settling, writing, touched, taking, countWrite]
  cases (m.effect i).write? <;> cases (m.effect i).takesInput <;> rfl

@[simp] theorem steps_taking (m : Machine) (e : Effect) :
    (m.taking e).counters.steps = m.counters.steps := by
  unfold taking
  split <;> rfl

theorem steps_failing (h : n.counters.steps = m.counters.steps) :
    (left (n.failing f)).counters.steps = m.counters.steps := by
  cases f with
  | fault f => exact h
  | memoryLimit => exact h

/-- A step that fails executes no instruction. -/
theorem steps_of_error (h : step m = .error f n) : n.counters.steps = m.counters.steps := by
  have hr := m.stepped
  rw [← after_of_error h, after]
  generalize step m = r at h hr ⊢
  cases hr with
  | faulted => rfl
  | halted => rfl
  | unreached => exact steps_failing rfl
  | undecoded => exact steps_failing rfl
  | starved => cases h
  | unread => exact steps_failing (steps_taking _ _)
  | unwritten => exact steps_failing (steps_taking _ _)
  | executed => cases h

/-! ## Histories -/

/-- What a machine with the given history has taken. -/
def taken (history : List Machine) : List Int := history.flatMap takes

/-- What a machine with the given history has sent. -/
def sent (history : List Machine) : List Int := history.flatMap sends

variable {g h : List Machine}

@[simp] theorem taken_nil : taken [] = [] := rfl

@[simp] theorem taken_append : taken (g ++ h) = taken g ++ taken h := List.flatMap_append

@[simp] theorem taken_singleton : taken [m] = m.takes := List.append_nil _

@[simp] theorem sent_nil : sent [] = [] := rfl

@[simp] theorem sent_append : sent (g ++ h) = sent g ++ sent h := List.flatMap_append

@[simp] theorem sent_singleton : sent [m] = m.sends := List.append_nil _

/-- One more step adds what it takes and sends. -/
theorem trades_after (ht : Trades m n (taken h) (sent h)) :
    Trades m n.after (taken (h ++ [n])) (sent (h ++ [n])) := by
  have hn := ht.trans n.trades_step
  rwa [← taken_singleton, ← sent_singleton, ← taken_append, ← sent_append] at hn

end Machine

end Wordcode
