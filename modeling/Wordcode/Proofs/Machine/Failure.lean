import Wordcode.Proofs.Machine.Extent

/-!
# Steps that fail

A step fails at a cell that is not there or at a word that is no instruction. Up
to there it has read cells, which may have grown the memory but shows at no
address, and it has changed no register (`Stays`, `exists_failing_of_error`). The
one thing that it cannot give back is an input: an input instruction takes its
value before it looks where to store it.

So a step that fails is undone but for that input, for the counters of accesses,
and for the fault that is recorded (`failed_step_aborts`).
-/

namespace Wordcode

namespace Memory

variable {m : Memory} {k : Nat}

theorem toList_growTo : (m.growTo k).toList = m.toList ++ List.replicate (k - m.size) 0 := by
  simp only [growTo, toList, size]
  split
  · next h => rw [Nat.sub_eq_zero_of_le h, List.replicate_zero, List.append_nil]
  · simp

/-- Accesses append nothing but zero cells. -/
theorem exists_toList_growFor (m : Memory) (as : List Int) :
    ∃ k, (m.growFor as).toList = m.toList ++ List.replicate k 0 := by
  induction as generalizing m with
  | nil => exact ⟨0, (List.append_nil _).symm⟩
  | cons a as ih =>
    obtain ⟨k, hk⟩ := ih (m.growTo (a.toNat + 1))
    refine ⟨a.toNat + 1 - m.size + k, ?_⟩
    rw [growFor_cons, hk, toList_growTo, List.append_assoc, List.replicate_append_replicate]

end Memory

namespace Machine

variable {m n : Machine} {i : Instruction} {f : Failure} {e : Effect} {as : List Int}

/-- On the way from `m` to `n` cells may have been read and events reported, and
control stays where it was. -/
structure Stays (m n : Machine) : Prop where
  memory : ∃ as, n.memory = m.memory.growFor as
  pc : n.pc = m.pc
  base : n.base = m.base
  status : n.status = m.status
  verbose : n.journal.verbose = m.journal.verbose

namespace Stays

theorem refl (m : Machine) : Stays m m := ⟨⟨[], rfl⟩, rfl, rfl, rfl, rfl⟩

theorem peek (h : Stays m n) (a : Int) : n.memory.peek a = m.memory.peek a := by
  obtain ⟨as, has⟩ := h.memory
  rw [has, Memory.peek_growFor]

theorem size_le (h : Stays m n) : m.memory.size ≤ n.memory.size := by
  obtain ⟨as, has⟩ := h.memory
  rw [has]
  exact Memory.size_le_size_growFor

theorem touched (h : Stays m n) : Stays m (n.touched as) := by
  obtain ⟨bs, hbs⟩ := h.memory
  refine ⟨⟨bs ++ as, ?_⟩, h.pc, h.base, h.status, h.verbose⟩
  rw [Memory.growFor_append, ← hbs]
  rfl

theorem countRead (h : Stays m n) : Stays m n.countRead :=
  ⟨h.memory, h.pc, h.base, h.status, h.verbose⟩

theorem countWrite (h : Stays m n) : Stays m n.countWrite :=
  ⟨h.memory, h.pc, h.base, h.status, h.verbose⟩

theorem fetched (h : Stays m n) : Stays m (n.fetched i) :=
  ⟨h.memory, h.pc, h.base, h.status, (Journal.verbose_note ..).trans h.verbose⟩

theorem taking (h : Stays m n) : Stays m (n.taking e) := by
  unfold Machine.taking
  split
  · exact ⟨h.memory, h.pc, h.base, h.status, h.verbose⟩
  · exact h

theorem failing (h : Stays m n) : Stays m (left (n.failing f)) := by
  cases f with
  | fault f =>
    exact ⟨h.memory, h.pc, h.base, h.status, (Journal.verbose_note ..).trans h.verbose⟩
  | memoryLimit => exact h

end Stays

/-- A word that decodes is there to be fetched. -/
theorem meets_of_decode (hf : m.fault = none) (hs : m.IsRunning)
    (hd : decode (m.memory.peek m.pc) = .ok i) : m.Meets i := by
  obtain ⟨hpc, hlt⟩ := Memory.lt_size_of_peek_ne_zero (ne_zero_of_decode hd)
  have hfits : m.pc + 1 - m.memory.size ≤ Memory.growthLimit := by
    simp only [Memory.growthLimit]
    omega
  exact ⟨hf, hs, ⟨hpc, hfits⟩, hd⟩

theorem failing_eq_error {g : Failure} (h : m.failing g = .error f n) :
    g = f ∧ n = left (m.failing g) := by
  cases g <;> cases h <;> exact ⟨rfl, rfl⟩

/-- Where a step fails, the machine has stayed. -/
theorem exists_failing_of_error (hf : m.fault = none) (hs : m.IsRunning)
    (h : step m = .error f n) :
    ∃ u, Stays m u ∧ u.fault = none ∧ n = left (u.failing f) := by
  have hr := m.stepped
  have hm := Stays.refl m
  rw [h] at hr
  generalize ho : EStateM.Result.error f n = r at hr
  suffices hu : ∃ u g, Stays m u ∧ u.fault = none ∧ u.failing g = .error f n by
    obtain ⟨u, g, hmu, huf, hg⟩ := hu
    obtain ⟨rfl, hn⟩ := failing_eq_error hg
    exact ⟨u, hmu, huf, hn⟩
  cases hr with
  | faulted hf' => cases hf.symm.trans hf'
  | halted _ hs' => exact absurd hs' hs
  | unreached => exact ⟨_, _, hm.countRead, hf, ho.symm⟩
  | undecoded => exact ⟨_, _, hm.touched, hf, ho.symm⟩
  | starved => cases ho
  | unread =>
    exact ⟨_, _, hm.fetched.taking.touched.countRead, fault_taking.trans hf, ho.symm⟩
  | unwritten =>
    exact ⟨_, _, hm.fetched.taking.touched.countWrite, fault_taking.trans hf, ho.symm⟩
  | executed => cases ho

/-- The failure is recorded if it is a fault. -/
theorem fault_failing (hn : n.fault = none) (g : Fault) :
    (left (n.failing f)).fault = some g ↔ f = .fault g := by
  cases f with
  | fault f' =>
    show some f' = some g ↔ _
    rw [Option.some.injEq, Failure.fault.injEq]
  | memoryLimit =>
    show n.fault = some g ↔ _
    rw [hn]
    exact ⟨nofun, nofun⟩

/-! ## The input that is lost -/

theorem takes_of_decode (hf : m.fault = none) (hs : m.IsRunning) {d : Destination} {v : Int}
    {rest : List Int} (hd : decode (m.memory.peek m.pc) = .ok (.input d))
    (hi : m.inputs.toList = v :: rest) : m.takes = [v] := by
  rw [takes_of_meets (meets_of_decode hf hs hd), hi]
  rfl

theorem takes_eq_nil
    (h : (∀ d, decode (m.memory.peek m.pc) ≠ .ok (.input d)) ∨ m.inputs.toList = []) :
    m.takes = [] := by
  rw [takes]
  split
  · next d hd =>
    have hinput := h.resolve_left fun h => h d (next?_eq_some_iff.1 hd).decoded
    rw [hinput, List.take_nil]
  · rfl

/-- What is left of the machine `m` after a step that fails with `f`. -/
structure Aborted (m : Machine) (f : Failure) (n : Machine) : Prop where
  peek : ∀ a, n.memory.peek a = m.memory.peek a
  grown : ∃ k, n.memory.toList = m.memory.toList ++ List.replicate k 0
  /-- An input instruction has taken its value. -/
  taken : ∀ d v rest, decode (m.memory.peek m.pc) = .ok (.input d) →
    m.inputs.toList = v :: rest →
      n.inputs.toList = rest ∧ n.counters.inputs = m.counters.inputs + 1
  /-- No other instruction takes one. -/
  kept : (∀ d, decode (m.memory.peek m.pc) ≠ .ok (.input d)) ∨ m.inputs.toList = [] →
    n.inputs = m.inputs ∧ n.counters.inputs = m.counters.inputs
  recorded : ∀ g, n.fault = some g ↔ f = .fault g
  /-- All else is as it was, but for the accesses counted and what was reported. -/
  frame : n =
    { m with
      memory := n.memory
      inputs := n.inputs
      fault := n.fault
      journal := { m.journal with events := n.journal.events }
      counters :=
        { m.counters with
          reads := n.counters.reads
          writes := n.counters.writes
          inputs := n.counters.inputs } }

/-- A step that fails on a machine that was sound changes nothing but what is
listed. -/
theorem failed_step_aborts (hf : m.fault = none) (hs : m.IsRunning)
    (h : step m = .error f n) : Aborted m f n := by
  obtain ⟨u, hmu, huf, hn⟩ := exists_failing_of_error hf hs h
  have hstays : Stays m n := hn ▸ hmu.failing
  obtain ⟨as, has⟩ := hstays.memory
  have ht := m.trades_step
  rw [after_of_error h, sends_of_error h] at ht
  refine ⟨hstays.peek, ?_, fun d v rest hd hi => ?_, fun hk => ?_, fun g => ?_, ?_⟩
  · rw [has]
    exact Memory.exists_toList_growFor _ as
  · have hin := ht.inputs
    have hcount := ht.taken
    rw [takes_of_decode hf hs hd hi] at hin hcount
    rw [hi] at hin
    exact ⟨(List.cons.inj hin).2, hcount⟩
  · have hin := ht.inputs
    have hcount := ht.taken
    rw [takes_eq_nil hk] at hin hcount
    exact ⟨Queue.ext hin, hcount⟩
  · rw [hn]
    exact fault_failing huf g
  · have hout : n.outputs = m.outputs := Queue.ext (ht.outputs.trans (List.append_nil _))
    have hsent : n.counters.outputs = m.counters.outputs := ht.sent
    have hcounters : n.counters =
        { m.counters with
          reads := n.counters.reads
          writes := n.counters.writes
          inputs := n.counters.inputs } := by
      show _ = Counters.mk m.counters.steps _ _ _ m.counters.outputs
      rw [← steps_of_error h, ← hsent]
    have hjournal : n.journal = { m.journal with events := n.journal.events } := by
      show _ = Journal.mk m.journal.verbose _
      rw [← hstays.verbose]
    rw [← hcounters, ← hjournal, ← hout, ← hstays.pc, ← hstays.base, ← hstays.status]

/-- An input instruction behind which the memory ends. The cell that is appended
for its destination leads below 0, when its value is already taken. -/
theorem failed_step_aborts_input : ∃ n,
    step { load [203] [5, 6] false with base := -1 } =
      .error (.fault (.negativeAddress (-1))) n ∧
    Aborted { load [203] [5, 6] false with base := -1 } (.fault (.negativeAddress (-1))) n ∧
    n.memory.toList = [203, 0] ∧ n.inputs.toList = [6] :=
  ⟨_, rfl, failed_step_aborts rfl (by decide) rfl, rfl, rfl⟩

end Machine

end Wordcode
