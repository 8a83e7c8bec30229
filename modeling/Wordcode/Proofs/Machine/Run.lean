import Wordcode.Machine.Run
import Wordcode.Proofs.Loop
import Wordcode.Proofs.Machine.History

/-!
# Runs, step by step

A run repeats steps, and has the outcome of the first that does not leave the
machine running (`exists_stateAfter_of_tryRun`). A run up to the next output
looks for an output before each step, and steps only while there is none
(`Seeks`).
-/

namespace Wordcode

namespace Machine

variable {fuel k : Nat} {m n t : Machine} {o : Outcome} {s : Status} {f : Failure}

/-! ## The outcome of a step -/

theorem tryStep_of_waiting (h : step m = .ok .waiting n) :
    m.tryStep = (.interrupted (.blocked n.pc), n) := by
  simp only [tryStep, h]

theorem tryStep_of_ok (h : step m = .ok s n) (hs : s ≠ .waiting) :
    m.tryStep = (.progressed s, n) := by
  cases s with
  | waiting => exact absurd rfl hs
  | running => simp only [tryStep, h]
  | stopped => simp only [tryStep, h]

theorem tryStep_of_error (h : step m = .error f n) :
    m.tryStep = (.interrupted (.failed f), n) := by
  simp only [tryStep, h]

theorem tryStep_snd : m.tryStep.2 = m.after := by
  cases hs : step m with
  | error f n => rw [tryStep_of_error hs, after_of_error hs]
  | ok s n =>
    by_cases hw : s = .waiting
    · subst hw
      rw [tryStep_of_waiting hs, after_of_ok hs]
    · rw [tryStep_of_ok hs hw, after_of_ok hs]

/-! ## Rounds of a run -/

theorem step_of_runRound (h : runRound m = .again n) : step m = .ok .running n := by
  unfold runRound at h
  split at h
  · cases h
    assumption
  all_goals cases h

theorem step_of_runRound_ok (h : runRound m = .done (.ok (), n)) : step m = .ok .stopped n := by
  unfold runRound at h
  split at h <;> cases h
  assumption

theorem runRound_of_running (h : step m = .ok .running n) : runRound m = .again n := by
  simp only [runRound, h]

theorem runRound_of_tryStep (h : m.tryStep.1 ≠ .progressed .running) :
    ∃ p, runRound m = .done p := by
  cases hs : step m with
  | error f n => exact ⟨(.error (.failed f), n), by simp only [runRound, hs]⟩
  | ok s n =>
    cases s with
    | running =>
      rw [tryStep_of_ok hs nofun] at h
      exact absurd rfl h
    | waiting => exact ⟨(.error (.blocked n.pc), n), by simp only [runRound, hs]⟩
    | stopped => exact ⟨(.ok (), n), by simp only [runRound, hs]⟩

theorem tryRun_of_runRound {p : Except Interrupt Unit × Machine} (h : runRound m = .done p) :
    m.tryRun (fuel + 1) = some m.tryStep ∧ m.tryStep.1 ≠ .progressed .running := by
  have hr : m.run (fuel + 1) = some p := loop_succ_of_done h
  rw [tryRun, hr]
  cases hs : step m with
  | error f n =>
    simp only [runRound, hs] at h
    cases h
    rw [tryStep_of_error hs]
    exact ⟨rfl, nofun⟩
  | ok s n =>
    cases s with
    | running =>
      simp only [runRound, hs] at h
      cases h
    | waiting =>
      simp only [runRound, hs] at h
      cases h
      rw [tryStep_of_waiting hs]
      exact ⟨rfl, nofun⟩
    | stopped =>
      simp only [runRound, hs] at h
      cases h
      rw [tryStep_of_ok hs nofun, ← status_eq_of_step hs]
      exact ⟨rfl, by rw [status_eq_of_step hs]; exact nofun⟩

/-! ## Runs -/

theorem tryRun_mono {fuel' : Nat} (h : m.tryRun fuel = some (o, n)) (hf : fuel ≤ fuel') :
    m.tryRun fuel' = some (o, n) := by
  obtain ⟨p, hp, ho⟩ := Option.map_eq_some_iff.1 h
  exact Option.map_eq_some_iff.2 ⟨p, loop_mono hp hf, ho⟩

theorem tryRun_add_of_stateAfter (h : stateAfter runRound k m = some n) :
    m.tryRun (k + fuel) = n.tryRun fuel :=
  congrArg _ (loop_add_of_stateAfter h)

theorem tryRun_succ (h : m.tryStep.1 ≠ .progressed .running) :
    m.tryRun (fuel + 1) = some m.tryStep := by
  obtain ⟨p, hp⟩ := runRound_of_tryStep h
  exact (tryRun_of_runRound hp).1

theorem tryRun_succ_of_running (h : step m = .ok .running n) :
    m.tryRun (fuel + 1) = n.tryRun fuel :=
  congrArg _ (loop_succ_of_again (runRound_of_running h))

/-- A step leaves the machine running, or it ends a run. -/
theorem running_or_ends (m : Machine) :
    (∃ n, step m = .ok .running n) ∨ m.tryStep.1 ≠ .progressed .running := by
  cases hs : step m with
  | error f n =>
    rw [tryStep_of_error hs]
    exact .inr nofun
  | ok s n =>
    cases s with
    | running => exact .inl ⟨n, rfl⟩
    | waiting =>
      rw [tryStep_of_waiting hs]
      exact .inr nofun
    | stopped =>
      rw [tryStep_of_ok hs nofun]
      exact .inr nofun

/-- A run repeats steps, and has the outcome of the first that does not leave
the machine running. -/
theorem exists_stateAfter_of_tryRun (h : m.tryRun fuel = some (o, n)) :
    ∃ k t, k < fuel ∧ stateAfter runRound k m = some t ∧ t.tryStep = (o, n) ∧
      o ≠ .progressed .running := by
  obtain ⟨p, hp, -⟩ := Option.map_eq_some_iff.1 h
  obtain ⟨k, t, hk, ht, hr, -⟩ := exists_stateAfter_of_loop hp
  obtain ⟨j, rfl⟩ := Nat.exists_eq_add_of_lt hk
  have hend : t.tryRun (j + 1) = some t.tryStep ∧ _ := tryRun_of_runRound hr
  obtain ⟨htry, hne⟩ := hend
  rw [Nat.add_assoc, tryRun_add_of_stateAfter ht, htry, Option.some.injEq] at h
  rw [h] at hne
  exact ⟨k, t, hk, ht, h, hne⟩

theorem tryRun_of_lastStep (hk : stateAfter runRound k m = some t) (hs : t.tryStep = (o, n))
    (ho : o ≠ .progressed .running) : m.tryRun (k + 1) = some (o, n) := by
  rw [tryRun_add_of_stateAfter hk, tryRun_succ (by rwa [hs]), hs]

/-! ## Runs up to an output -/

/-- What a round of a run up to the next output can come to. -/
inductive Seeks (m : Machine) : Progress Machine (Except Interrupt (Option Int) × Machine) → Prop
  /-- There is an output. -/
  | found {v : Int} {q : Queue} (h : m.outputs.pop? = some (v, q)) :
    Seeks m (.done (.ok (some v), { m with outputs := q }))
  /-- There is no output, and there will be none. -/
  | exhausted (ho : m.outputs.toList = []) (hs : m.status = .stopped) :
    Seeks m (.done (.ok none, m))
  | stepped {s : Status} {n : Machine} (ho : m.outputs.toList = []) (hs : m.IsRunning)
    (h : step m = .ok s n) (hw : s ≠ .waiting) : Seeks m (.again n)
  | blocked {n : Machine} (ho : m.outputs.toList = []) (hs : m.IsRunning)
    (h : step m = .ok .waiting n) : Seeks m (.done (.error (.blocked n.pc), n))
  | failed {f : Failure} {n : Machine} (ho : m.outputs.toList = []) (hs : m.IsRunning)
    (h : step m = .error f n) : Seeks m (.done (.error (.failed f), n))

/-- A round comes to what its situation gives it. -/
theorem Seeks.eq {r : Progress Machine (Except Interrupt (Option Int) × Machine)}
    (h : Seeks m r) : outputRound m = r := by
  cases h with
  | found h => simp only [outputRound, h]
  | exhausted ho hs => simp only [outputRound, Queue.pop?_eq_none_iff.2 ho, if_pos hs]
  | @stepped s n ho hs h hw =>
    cases s with
    | waiting => exact absurd rfl hw
    | running => simp only [outputRound, Queue.pop?_eq_none_iff.2 ho, if_neg hs, h]
    | stopped => simp only [outputRound, Queue.pop?_eq_none_iff.2 ho, if_neg hs, h]
  | blocked ho hs h => simp only [outputRound, Queue.pop?_eq_none_iff.2 ho, if_neg hs, h]
  | failed ho hs h => simp only [outputRound, Queue.pop?_eq_none_iff.2 ho, if_neg hs, h]

theorem seeks (m : Machine) : Seeks m (outputRound m) := by
  suffices h : ∃ r, Seeks m r by
    obtain ⟨r, h⟩ := h
    rwa [h.eq]
  cases ho : m.outputs.pop? with
  | some p => exact ⟨_, .found ho⟩
  | none =>
    rw [Queue.pop?_eq_none_iff] at ho
    by_cases hs : m.IsRunning
    · cases h : step m with
      | error f n => exact ⟨_, .failed ho hs h⟩
      | ok s n =>
        by_cases hw : s = .waiting
        · subst hw
          exact ⟨_, .blocked ho hs h⟩
        · exact ⟨_, .stepped ho hs h hw⟩
    · exact ⟨_, .exhausted ho (Decidable.not_not.1 hs)⟩

end Machine

end Wordcode
