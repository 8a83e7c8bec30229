import Wordcode.Proofs.Machine.Withheld

/-!
# Ways to drive a machine

A host can drive a machine step by step, have it run, or take one output after
another. However it does so, the machine executes the same instructions
(`drivers_agree`): a run is a number of steps that leave the machine running and
one that does not, and the outputs that a host takes one by one are those that
it finds queued after a run.

Between two outputs that are taken nothing else is queued. So the machine goes
through the run in pieces, in each of which the outputs taken before are merely
not withheld any more (`Yields.of_tryRun`).
-/

namespace Wordcode

/-- The outcome of a run with the given result. -/
def Outcome.ofResult : Except Interrupt Unit → Outcome
  | .ok () => .progressed .stopped
  | .error interrupt => .interrupted interrupt

namespace Machine

/-- The machine after `k` calls of `tryStep`, if each leaves it running. -/
def strides : Nat → Machine → Option Machine
  | 0, m => some m
  | k + 1, m =>
    match m.tryStep with
    | (.progressed .running, n) => strides k n
    | _ => none

/-- A host that takes one output after another is handed the values, up to a call
that hands out none: the machine has halted, or is interrupted. -/
inductive Yields : Machine → List Int → Except Interrupt Unit → Machine → Prop
  | halted {fuel : Nat} {m n : Machine} (h : m.runUntilOutput fuel = some (.ok none, n)) :
    Yields m [] (.ok ()) n
  | interrupted {fuel : Nat} {interrupt : Interrupt} {m n : Machine}
    (h : m.runUntilOutput fuel = some (.error interrupt, n)) : Yields m [] (.error interrupt) n
  | output {fuel : Nat} {value : Int} {values : List Int} {result : Except Interrupt Unit}
    {m n t : Machine} (h : m.runUntilOutput fuel = some (.ok (some value), n))
    (hn : Yields n values result t) : Yields m (value :: values) result t

variable {fuel k : Nat} {m n t : Machine} {o : Outcome} {vs : List Int}
  {r : Except Interrupt Unit}

/-! ## Runs and steps -/

theorem strides_eq_stateAfter : strides k m = stateAfter runRound k m := by
  induction k generalizing m with
  | zero => rfl
  | succ k ih =>
    rcases m.running_or_ends with ⟨n, hs⟩ | he
    · rw [stateAfter_succ_of_again (runRound_of_running hs), ← ih]
      simp only [strides, tryStep_of_ok hs nofun]
    · obtain ⟨p, hp⟩ := runRound_of_tryStep he
      rw [stateAfter_succ_of_done hp]
      unfold strides
      split
      · next h => exact absurd (congrArg Prod.fst h) he
      · rfl

theorem tryRun_iff_strides : (∃ fuel, m.tryRun fuel = some (o, n)) ↔
    ∃ k t, m.strides k = some t ∧ t.tryStep = (o, n) ∧ o ≠ .progressed .running := by
  constructor
  · rintro ⟨fuel, h⟩
    obtain ⟨k, t, -, hk, ht, ho⟩ := exists_stateAfter_of_tryRun h
    exact ⟨k, t, strides_eq_stateAfter.trans hk, ht, ho⟩
  · rintro ⟨k, t, hk, ht, ho⟩
    exact ⟨k + 1, tryRun_of_lastStep (strides_eq_stateAfter.symm.trans hk) ht ho⟩

/-- The outcome of a run tells its result. -/
theorem tryRun_eq_map_run : m.tryRun fuel = (m.run fuel).map fun p => (.ofResult p.1, p.2) := by
  rw [tryRun]
  refine Option.map_congr fun p hp => ?_
  obtain ⟨i | u, n⟩ := p
  · rfl
  · obtain ⟨k, t, -, -, ht, -⟩ := exists_stateAfter_of_loop hp
    show (Outcome.progressed n.status, n) = _
    rw [status_eq_of_step (step_of_runRound_ok ht)]
    rfl

/-! ## Runs up to an output -/

/-- A step that ends a run sends nothing. -/
theorem sends_of_ends (h : m.tryStep.1 ≠ .progressed .running) : m.sends = [] := by
  cases hs : step m with
  | error f n => exact sends_of_error hs
  | ok s n =>
    cases s with
    | running =>
      rw [tryStep_of_ok hs nofun] at h
      exact absurd rfl h
    | waiting => exact sends_of_waiting hs
    | stopped => exact sends_of_stopped hs

theorem outputs_of_ends (h : m.tryStep.1 ≠ .progressed .running) :
    m.tryStep.2.outputs.toList = m.outputs.toList := by
  rw [tryStep_snd, m.trades_step.outputs, sends_of_ends h, List.append_nil]

theorem ofResult_ne_running : Outcome.ofResult r ≠ .progressed .running := by
  cases r <;> exact nofun

/-- A run ends without outputs if there are none before its last step. -/
theorem no_outputs_of_ends (ho : m.outputs.toList = []) (h : m.tryStep = (.ofResult r, n)) :
    n.outputs.toList = [] := by
  have hn := outputs_of_ends (m := m) (by rw [h]; exact ofResult_ne_running)
  rwa [h, ho] at hn

theorem running_of_step_running (hs : step m = .ok .running n) : n.IsRunning := by
  rw [IsRunning, status_eq_of_step hs]
  exact nofun

/-- A run up to the next output makes steps as any run does. It ends before a step
if there is an output, and otherwise with the step that ends a run. -/
theorem exists_stateAfter_of_runUntilOutput (hm : m.IsRunning)
    {result : Except Interrupt (Option Int)} (h : m.runUntilOutput fuel = some (result, n)) :
    ∃ k t, stateAfter runRound k m = some t ∧ t.IsRunning ∧
      ((∃ v q, t.outputs.pop? = some (v, q) ∧ result = .ok (some v) ∧
          n = { t with outputs := q }) ∨
        (t.outputs.toList = [] ∧
          ∃ r, t.tryStep = (.ofResult r, n) ∧ result = r.map fun _ => none)) := by
  induction fuel generalizing m with
  | zero => cases h
  | succ fuel ih =>
    have hs := m.seeks
    cases hr : outputRound m with
    | done p =>
      have hp : some p = some (result, n) := (loop_succ_of_done hr).symm.trans h
      rw [hr] at hs
      refine ⟨0, m, rfl, hm, ?_⟩
      cases hp
      cases hs with
      | found ho => exact .inl ⟨_, _, ho, rfl, rfl⟩
      | exhausted _ hs => exact absurd hs hm
      | blocked ho _ hs => exact .inr ⟨ho, .error _, tryStep_of_waiting hs, rfl⟩
      | failed ho _ hs => exact .inr ⟨ho, .error _, tryStep_of_error hs, rfl⟩
    | again m' =>
      have hl : m'.runUntilOutput fuel = some (result, n) := (loop_succ_of_again hr).symm.trans h
      rw [hr] at hs
      cases hs with
      | @stepped s _ ho _ hs hw =>
        cases s with
        | waiting => exact absurd rfl hw
        | running =>
          obtain ⟨k, t, hk, ht⟩ := ih (running_of_step_running hs) hl
          exact ⟨k + 1, t, (stateAfter_succ_of_again (runRound_of_running hs)).trans hk, ht⟩
        | stopped =>
          -- One more round finds that the machine has halted.
          have ht : m.tryStep = (.ofResult (.ok ()), m') := tryStep_of_ok hs nofun
          cases fuel with
          | zero => cases hl
          | succ fuel =>
            have hlast := (Seeks.exhausted (no_outputs_of_ends ho ht) (status_eq_of_step hs)).eq
            cases (loop_succ_of_done hlast).symm.trans hl
            exact ⟨0, m, rfl, hm, .inr ⟨ho, .ok (), ht, rfl⟩⟩

/-! ## Taking one output after another -/

namespace Yields

/-- What is taken one by one is queued after a run. -/
theorem tryRun (h : Yields m vs r n) (hm : m.IsRunning) :
    ∃ fuel t, m.tryRun fuel = some (.ofResult r, t) ∧ t.outputs.toList = vs ∧ t.drained = n := by
  induction h with
  | halted h =>
    obtain ⟨k, t, hk, -, ⟨v, q, -, hv, -⟩ | ⟨ho, r, ht, hr⟩⟩ :=
      exists_stateAfter_of_runUntilOutput hm h
    · cases hv
    · cases r with
      | error i => cases hr
      | ok u =>
        have hn := no_outputs_of_ends ho ht
        exact ⟨k + 1, _, tryRun_of_lastStep hk ht nofun, hn, drained_of_nil hn⟩
  | interrupted h =>
    obtain ⟨k, t, hk, -, ⟨v, q, -, hv, -⟩ | ⟨ho, r, ht, hr⟩⟩ :=
      exists_stateAfter_of_runUntilOutput hm h
    · cases hv
    · cases r with
      | ok u => cases hr
      | error i =>
        cases hr
        have hn := no_outputs_of_ends ho ht
        exact ⟨k + 1, _, tryRun_of_lastStep hk ht nofun, hn, drained_of_nil hn⟩
  | @output _ v vs r m n z h hn ih =>
    obtain ⟨k, t, hk, hrun, ⟨v', q, hq, hv, rfl⟩ | ⟨-, r', -, hr⟩⟩ :=
      exists_stateAfter_of_runUntilOutput hm h
    · cases hv
      obtain ⟨fuel, y, hy, ho, rfl⟩ := ih hrun
      refine ⟨k + fuel, y.withhold [v], ?_, ?_, rfl⟩
      · rw [tryRun_add_of_stateAfter hk, ← withhold_of_pop hq, tryRun_withhold, hy]
        rfl
      · rw [toList_outputs_withhold, ho]
        rfl
    · cases r' <;> cases hr

theorem of_running (ho : m.outputs.toList = []) (hs : step m = .ok .running n)
    (h : Yields n vs r t) : Yields m vs r t := by
  have hl : ∀ fuel, m.runUntilOutput (fuel + 1) = n.runUntilOutput fuel := fun _ =>
    loop_succ_of_again (Seeks.stepped ho (running_of_step hs) hs nofun).eq
  cases h with
  | halted h => exact .halted ((hl _).trans h)
  | interrupted h => exact .interrupted ((hl _).trans h)
  | output h hn => exact .output ((hl _).trans h) hn

/-- What is withheld is handed out first. -/
theorem withheld (h : Yields m vs r t) (ws : List Int) : Yields (m.withhold ws) (ws ++ vs) r t := by
  induction ws with
  | nil => rwa [withhold_nil]
  | cons w ws ih =>
    have hp : (m.withhold (w :: ws)).outputs.pop? = some (w, (m.withhold ws).outputs) := by
      rw [Queue.pop?_eq_some_iff, toList_outputs_withhold, toList_outputs_withhold]
      rfl
    have hl : (m.withhold (w :: ws)).runUntilOutput 1 = some (.ok (some w), m.withhold ws) :=
      loop_succ_of_done (Seeks.found hp).eq
    exact .output hl ih

theorem of_ends (ho : m.outputs.toList = []) (hm : m.IsRunning)
    (h : m.tryStep = (.ofResult r, n)) : Yields m [] r n := by
  have hl : ∀ p, Seeks m (.done p) → m.runUntilOutput 1 = some p := fun _ hp =>
    loop_succ_of_done hp.eq
  cases hs : step m with
  | error f n' =>
    rw [tryStep_of_error hs] at h
    cases r <;> cases h
    exact .interrupted (hl _ (.failed ho hm hs))
  | ok s n' =>
    cases s with
    | running =>
      rw [tryStep_of_ok hs nofun] at h
      cases r <;> cases h
    | waiting =>
      rw [tryStep_of_waiting hs] at h
      cases r <;> cases h
      exact .interrupted (hl _ (.blocked ho hm hs))
    | stopped =>
      rw [tryStep_of_ok hs nofun] at h
      cases r <;> cases h
      have ht : m.tryStep = (.ofResult (.ok ()), n) := tryStep_of_ok hs nofun
      have hfirst : m.runUntilOutput 2 = n.runUntilOutput 1 :=
        loop_succ_of_again (Seeks.stepped ho hm hs nofun).eq
      have hlast : n.runUntilOutput 1 = some (.ok none, n) :=
        loop_succ_of_done (Seeks.exhausted (no_outputs_of_ends ho ht) (status_eq_of_step hs)).eq
      exact .halted (hfirst.trans hlast)

/-- The outputs that a machine has before a run come first, and the others are
those of the run without them. -/
theorem of_drained
    (hd : ∀ n, m.drained.tryRun fuel = some (.ofResult r, n) →
      Yields m.drained n.outputs.toList r n.drained)
    (h : m.tryRun fuel = some (.ofResult r, n)) : Yields m n.outputs.toList r n.drained := by
  have hm : m.drained.withhold m.outputs.toList = m := withhold_drained
  rw [← hm, tryRun_withhold] at h
  obtain ⟨⟨o, y⟩, hy, hn⟩ := Option.map_eq_some_iff.1 h
  cases hn
  have hyields := (hd y hy).withheld m.outputs.toList
  rwa [hm, ← toList_outputs_withhold] at hyields

/-- What is queued after a run is taken one by one. -/
theorem of_tryRun (hm : m.IsRunning) (h : m.tryRun fuel = some (.ofResult r, n)) :
    Yields m n.outputs.toList r n.drained := by
  induction fuel generalizing m n with
  | zero => cases h
  | succ fuel ih =>
    refine of_drained (fun n h => ?_) h
    have ho : m.drained.outputs.toList = [] := rfl
    rcases m.drained.running_or_ends with ⟨m', hs⟩ | he
    · rw [tryRun_succ_of_running hs] at h
      exact of_running ho hs (ih (running_of_step_running hs) h)
    · rw [tryRun_succ he, Option.some.injEq] at h
      have hn := no_outputs_of_ends ho h
      rw [hn, drained_of_nil hn]
      exact of_ends ho hm h

end Yields

/-- However a machine that has not halted is driven, it comes to the same: a run
makes steps while they leave the machine running, and has the outcome of the first
that does not; its result is that outcome; and taking one output after another
yields the outputs that the run leaves queued, ends like the run, and leaves the
machine that the run leaves, without these outputs. -/
theorem drivers_agree {m : Machine} (hm : m.IsRunning) :
    (∀ outcome n, (∃ fuel, m.tryRun fuel = some (outcome, n)) ↔
      ∃ k t, m.strides k = some t ∧ t.tryStep = (outcome, n) ∧ outcome ≠ .progressed .running) ∧
    (∀ fuel, m.tryRun fuel = (m.run fuel).map fun p => (.ofResult p.1, p.2)) ∧
    ∀ values result n, Yields m values result n ↔
      ∃ fuel t, m.tryRun fuel = some (.ofResult result, t) ∧ t.drainOutputs = (values, n) := by
  refine ⟨fun _ _ => tryRun_iff_strides, fun _ => tryRun_eq_map_run, fun values result n => ?_⟩
  constructor
  · intro h
    obtain ⟨fuel, t, ht, ho, hn⟩ := h.tryRun hm
    exact ⟨fuel, t, ht, Prod.ext ho hn⟩
  · rintro ⟨fuel, t, ht, hd⟩
    cases hd
    exact .of_tryRun hm ht

/-- A machine with an output queued, which outputs one value more and then waits. -/
theorem drivers_agree_waiting : ∃ m n t,
    (load [104, 7, 104, 8, 3, 0, 99] [] false).tryStep = (.progressed .running, m) ∧
    m.IsRunning ∧ m.tryRun 9 = some (.interrupted (.blocked 4), t) ∧
    t.drainOutputs = ([7, 8], n) ∧ Yields m [7, 8] (.error (.blocked 4)) n := by
  obtain ⟨m, hm⟩ : ∃ m, (load [104, 7, 104, 8, 3, 0, 99] [] false).tryStep.2 = m := ⟨_, rfl⟩
  have hfirst : (load [104, 7, 104, 8, 3, 0, 99] [] false).tryStep.1 = .progressed .running := by
    decide +kernel
  have hr : m.IsRunning ∧ (m.tryRun 9).map (fun p => (p.1, p.2.outputs.toList)) =
      some (.interrupted (.blocked 4), [7, 8]) := by
    rw [← hm]
    decide +kernel
  obtain ⟨hrun, hr⟩ := hr
  obtain ⟨⟨o, t⟩, ht, hp⟩ := Option.map_eq_some_iff.1 hr
  obtain ⟨rfl, ho⟩ : o = .interrupted (.blocked 4) ∧ t.outputs.toList = [7, 8] := by simpa using hp
  have hd : t.drainOutputs = ([7, 8], t.drained) := Prod.ext ho rfl
  refine ⟨m, t.drained, t, Prod.ext hfirst hm, hrun, ht, hd, ?_⟩
  exact ((drivers_agree hrun).2.2 [7, 8] (.error (.blocked 4)) t.drained).2 ⟨9, t, ht, hd⟩

end Machine

end Wordcode
