import Wordcode.Proofs.Machine.Alike

/-!
# Replays

What a machine is after some instructions depends on its program and on its
inputs, and not on when these came. So a machine that was given its inputs bit by
bit, handed out its outputs, and waited in between is alike to one that has all
those inputs queued from the start and executes as many instructions without
ever waiting: its replay (`Replays`).

More inputs leave a replay as it is, but for what is queued. So a machine whose
inputs begin a list is an earlier state of a machine that rests, given the whole
list: it cannot fail, nor come further (`Bounded`).
-/

namespace Wordcode

namespace Machine

variable {d j k : Nat} {program handed rest vs xs : List Int} {m n a b r : Machine} {s : Status}
  {h : List Machine}

/-! ## Executing without waiting -/

/-- The machine after the next instruction, if one is executed. -/
def progress (m : Machine) : Option Machine :=
  match step m with
  | .ok .waiting _ => none
  | .ok _ n => some n
  | .error _ _ => none

/-- The machine after `k` instructions, if it executes them without waiting. -/
def advance : Nat → Machine → Option Machine
  | 0, m => some m
  | k + 1, m => (advance k m).bind progress

theorem progress_eq_some_iff : m.progress = some n ↔ ∃ s, step m = .ok s n ∧ s ≠ .waiting := by
  constructor
  · intro h
    unfold progress at h
    split at h
    · cases h
    · next s _ hw hs =>
      cases h
      exact ⟨s, hs, hw⟩
    · cases h
  · rintro ⟨s, hs, hw⟩
    cases s with
    | waiting => exact absurd rfl hw
    | running => simp only [progress, hs]
    | stopped => simp only [progress, hs]

theorem not_starves_of_progress (h : m.progress = some n) : ¬ m.Starves := by
  obtain ⟨s, hs, hw⟩ := progress_eq_some_iff.1 h
  exact not_starves_of_step hs hw

theorem running_of_progress (h : m.progress = some n) : m.IsRunning := by
  obtain ⟨s, hs, -⟩ := progress_eq_some_iff.1 h
  exact running_of_step hs

theorem outputs_prefix_of_progress (h : m.progress = some n) :
    m.outputs.toList <+: n.outputs.toList := by
  obtain ⟨s, hs, -⟩ := progress_eq_some_iff.1 h
  rw [← after_of_ok hs, m.trades_step.outputs]
  exact List.prefix_append ..

theorem Trails.progress (h : Trails d handed rest m a) (hm : m.progress = some n) :
    ∃ b, a.progress = some b ∧ Trails d handed rest n b := by
  obtain ⟨s, hs, hw⟩ := progress_eq_some_iff.1 hm
  obtain ⟨b, hb, -, hnb⟩ := h.step_of_ok (not_starves_of_progress hm) hs
  exact ⟨b, progress_eq_some_iff.2 ⟨s, hb, hw⟩, hnb⟩

theorem Trails.advance (h : Trails d handed rest m a) (hm : m.advance k = some n) :
    ∃ b, a.advance k = some b ∧ Trails d handed rest n b := by
  induction k generalizing n with
  | zero =>
    cases hm
    exact ⟨a, rfl, h⟩
  | succ k ih =>
    obtain ⟨n', hn', hn⟩ := Option.bind_eq_some_iff.1 hm
    obtain ⟨b', hb', h'⟩ := ih hn'
    obtain ⟨b, hb, hnb⟩ := h'.progress hn
    exact ⟨b, Option.bind_eq_some_iff.2 ⟨b', hb', hb⟩, hnb⟩

/-- A machine that executes `k` instructions has come past fewer. -/
theorem exists_advance_of_le (hk : m.advance k = some n) (hj : j ≤ k) :
    ∃ a, m.advance j = some a ∧ a.outputs.toList <+: n.outputs.toList ∧
      (j < k → ∃ b, a.progress = some b) := by
  induction k generalizing n with
  | zero =>
    have hj0 : j = 0 := by omega
    subst hj0
    exact ⟨n, hk, List.prefix_refl _, fun h => by omega⟩
  | succ k ih =>
    obtain ⟨n', hn', hn⟩ := Option.bind_eq_some_iff.1 hk
    by_cases hlast : j = k + 1
    · subst hlast
      exact ⟨n, hk, List.prefix_refl _, fun h => by omega⟩
    · obtain ⟨a, ha, hpre, hnext⟩ := ih hn' (show j ≤ k by omega)
      refine ⟨a, ha, hpre.trans (outputs_prefix_of_progress hn), fun _ => ?_⟩
      by_cases hjk : j = k
      · subst hjk
        cases ha.symm.trans hn'
        exact ⟨n, hn⟩
      · exact hnext (show j < k by omega)

/-! ## Replays -/

/-- All values that a machine with the given history was given. -/
def delivered (h : List Machine) (m : Machine) : List Int := taken h ++ m.inputs.toList

/-- The machine with the given history is alike to one that had all its inputs
from the start, but for the outputs that it has handed out. -/
def Replays (program : List Int) (h : List Machine) (m : Machine) : Prop :=
  ∃ d handed a, (load program (delivered h m) false).advance m.counters.steps = some a ∧
    Trails d handed [] m a ∧ a.outputs.toList = sent h

theorem trails_load {verbose verbose' : Bool} : Trails 0 [] rest (load program vs verbose)
    (load program (vs ++ rest) verbose') where
  toAlike := ⟨rfl, rfl, rfl, rfl, rfl, .inl rfl⟩
  inputs := by simp [load]
  outputs := rfl

theorem Trails.trans (h : Trails d handed [] m a) (h' : Trails 0 [] rest a b) :
    Trails d handed rest m b where
  memory := h.memory.trans h'.memory
  pc := h.pc.trans h'.pc
  base := h.base.trans h'.base
  fault := h.fault.trans h'.fault
  counters := by
    rw [h.counters, h'.counters]
    rfl
  status := by
    rcases h'.status with hs | ⟨ha, hb⟩
    · rw [← hs]
      exact h.status
    · rcases h.status with hs | ⟨-, hr⟩
      · exact .inr ⟨hs.trans ha, hb⟩
      · rw [ha] at hr
        cases hr
  inputs := by rw [h'.inputs, h.inputs, List.append_nil]
  outputs := by rw [h'.outputs, h.outputs, List.nil_append]

namespace Replays

theorem start {verbose : Bool} : Replays program [] (load program vs verbose) := by
  refine ⟨0, [], load program vs false, ?_, ?_, rfl⟩
  · show some (load program (Queue.ofList vs).toList false) = _
    rw [Queue.toList_ofList]
  · have h : Trails 0 [] [] (load program vs verbose) (load program (vs ++ []) false) := trails_load
    rwa [List.append_nil] at h

/-- More inputs leave a replay as it is, but for what is queued. -/
theorem extend (hm : Replays program h m) (rest : List Int) :
    ∃ d handed b, (load program (delivered h m ++ rest) false).advance m.counters.steps = some b ∧
      Trails d handed rest m b ∧ b.outputs.toList = sent h := by
  obtain ⟨d, handed, a, ha, hma, ho⟩ := hm
  have hl : Trails 0 [] rest (load program (delivered h m) false)
      (load program (delivered h m ++ rest) false) := trails_load
  obtain ⟨b, hb, hab⟩ := hl.advance ha
  refine ⟨d, handed, b, hb, hma.trans hab, ?_⟩
  rw [hab.outputs, ho, List.nil_append]

theorem addInputs (hm : Replays program h m) : Replays program h (m.addInputs vs) := by
  obtain ⟨d, handed, b, hb, hmb, ho⟩ := hm.extend vs
  have hv : Trails d handed (vs ++ []) m b := by rwa [List.append_nil]
  refine ⟨d, handed, b, ?_, hv.addInputs, ho⟩
  have hd : delivered h (m.addInputs vs) = delivered h m ++ vs := by
    rw [delivered, delivered, List.append_assoc]
    exact congrArg _ Queue.toList_extend
  rw [hd]
  exact hb

/-- Handing out outputs plays no part. -/
theorem of_outputs (hm : Replays program h m) {q : Queue} (hq : vs ++ q.toList = m.outputs.toList) :
    Replays program h { m with outputs := q } := by
  obtain ⟨d, handed, a, ha, hma, ho⟩ := hm
  refine ⟨d, handed ++ vs, a, ha, ⟨?_, hma.inputs, ?_⟩, ho⟩
  · exact ⟨hma.memory, hma.pc, hma.base, hma.fault, hma.counters, hma.status⟩
  · rw [hma.outputs, ← hq, List.append_assoc]

theorem of_journal (hm : Replays program h m) {journal : Journal} :
    Replays program h { m with journal } := by
  obtain ⟨d, handed, a, ha, hma, ho⟩ := hm
  exact ⟨d, handed, a, ha,
    ⟨⟨hma.memory, hma.pc, hma.base, hma.fault, hma.counters, hma.status⟩, hma.inputs, hma.outputs⟩,
    ho⟩

/-- A step that executes an instruction replays as one more instruction, and a
step that waits as none. -/
theorem step (hm : Replays program h m) (hs : Machine.step m = .ok s n) :
    Replays program (h ++ [m]) n := by
  obtain ⟨d, handed, a, ha, hma, ho⟩ := hm
  have htrade := m.trades_step
  rw [after_of_ok hs] at htrade
  have hd : delivered (h ++ [m]) n = delivered h m := by
    rw [delivered, taken_append, taken_singleton, List.append_assoc, htrade.inputs]
    rfl
  by_cases hst : m.Starves
  · obtain ⟨n', hn', hna⟩ := hma.step_of_starves hst
    rw [hn'] at hs
    cases hs
    refine ⟨d + 1, handed, a, ?_, hna, ?_⟩
    · rw [hd, steps_of_waiting hn']
      exact ha
    · rw [sent_append, sent_singleton, sends_of_waiting hn', List.append_nil]
      exact ho
  · have hw := ne_waiting_of_not_starves hst hs
    obtain ⟨b, hb, -, hnb⟩ := hma.step_of_ok hst hs
    refine ⟨d, handed, b, ?_, hnb, ?_⟩
    · rw [hd, steps_of_executed hs hw]
      exact Option.bind_eq_some_iff.2 ⟨a, ha, progress_eq_some_iff.2 ⟨s, hb, hw⟩⟩
    · rw [hnb.outputs, htrade.outputs, ← List.append_assoc, ← hma.outputs, ho, sent_append,
        sent_singleton]

end Replays

/-! ## Machines at rest -/

/-- A machine that rests after `k` instructions, given the inputs `xs`. -/
structure RestsAt (program xs : List Int) (k : Nat) (r : Machine) : Prop where
  reached : (load program xs false).advance k = some r
  resting : r.status = .stopped ∨ r.Starves

/-- A machine that was given no more than `xs`, and came no further than to
where a machine rests that is given `xs`. -/
structure Bounded (program xs : List Int) (k : Nat) (h : List Machine) (m : Machine) : Prop where
  replays : Replays program h m
  delivered : delivered h m <+: xs
  steps : m.counters.steps ≤ k

namespace Bounded

/-- The machine trails one on the way to the machine that rests. -/
theorem trails (hb : Bounded program xs k h m) (hr : RestsAt program xs k r) :
    ∃ d handed rest b, xs = Machine.delivered h m ++ rest ∧ Trails d handed rest m b ∧
      b.outputs.toList = sent h ∧ b.outputs.toList <+: r.outputs.toList ∧
      (m.counters.steps < k → ∃ c, b.progress = some c) ∧ (m.counters.steps = k → b = r) := by
  obtain ⟨rest, rfl⟩ := hb.delivered
  obtain ⟨d, handed, b, hab, hmb, ho⟩ := hb.replays.extend rest
  obtain ⟨b', hb', hpre, hnext⟩ := exists_advance_of_le hr.reached hb.steps
  cases hab.symm.trans hb'
  refine ⟨d, handed, rest, b, rfl, hmb, ho, hpre, hnext, ?_⟩
  rintro rfl
  cases hab.symm.trans hr.reached
  rfl

theorem prefix_outputs (hb : Bounded program xs k h m) (hr : RestsAt program xs k r) :
    sent h <+: r.outputs.toList := by
  obtain ⟨d, handed, rest, b, -, -, ho, hpre, -⟩ := hb.trails hr
  rwa [← ho]

/-- A step cannot fail, nor come further than the machine that rests. -/
theorem step (hb : Bounded program xs k h m) (hr : RestsAt program xs k r) (hm : m.IsRunning) :
    ∃ s n, Machine.step m = .ok s n ∧ n.counters.steps ≤ k := by
  by_cases hst : m.Starves
  · obtain ⟨n, hn⟩ := starves_iff.1 hst
    refine ⟨.waiting, n, hn, ?_⟩
    rw [steps_of_waiting hn]
    exact hb.steps
  obtain ⟨d, handed, rest, b, -, hmb, -, -, hnext, hlast⟩ := hb.trails hr
  rcases Nat.lt_or_eq_of_le hb.steps with hlt | heq
  · obtain ⟨c, hc⟩ := hnext hlt
    obtain ⟨s, hs, hw⟩ := progress_eq_some_iff.1 hc
    cases hms : Machine.step m with
    | error f n =>
      obtain ⟨c', hc', -⟩ := hmb.step_of_error hms
      rw [hs] at hc'
      cases hc'
    | ok s' n =>
      have hsteps := steps_of_executed hms (ne_waiting_of_not_starves hst hms)
      exact ⟨s', n, rfl, by omega⟩
  · -- The machine stands where the other rests, which has no more inputs than it.
    obtain rfl := hlast heq
    rcases hr.resting with hstop | hstarves
    · exact absurd (hmb.stopped_iff.2 hstop) hm
    · have hi := hstarves.inputs
      rw [hmb.inputs, List.append_eq_nil_iff] at hi
      have hib : m.inputs.toList = b.inputs.toList := by rw [hi.1, hstarves.inputs]
      exact absurd ((hmb.starves_iff hib).2 hstarves) hst

/-- A machine that has halted has come to where the other rests. -/
theorem of_stopped (hb : Bounded program xs k h m) (hr : RestsAt program xs k r)
    (hm : m.status = .stopped) :
    m.counters.steps = k ∧ ∃ d handed rest, xs = Machine.delivered h m ++ rest ∧
      Trails d handed rest m r ∧ r.outputs.toList = sent h := by
  obtain ⟨d, handed, rest, b, hxs, hmb, ho, -, hnext, hlast⟩ := hb.trails hr
  rcases Nat.lt_or_eq_of_le hb.steps with hlt | heq
  · obtain ⟨c, hc⟩ := hnext hlt
    exact absurd (hmb.stopped_iff.1 hm) (running_of_progress hc)
  · obtain rfl := hlast heq
    exact ⟨heq, d, handed, rest, hxs, hmb, ho⟩

end Bounded

end Machine

end Wordcode
