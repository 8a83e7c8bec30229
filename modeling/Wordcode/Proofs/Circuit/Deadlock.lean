import Wordcode.Proofs.Circuit.Confluence
import Wordcode.Proofs.Circuit.Fuel

/-!
# Deadlocks are found, and only deadlocks

A round that comes to its end leaves every amplifier dormant: it has halted, or
waits for an input that is not there, and its outputs were handed on
(`Completes.dormant`). What can still be on its way is with the loop alone. If
that is nothing, no schedule has any amplifier get on (`stuck_of_dormant`), and
the next round finds so (`round_of_dormant`).

Any other round executes an instruction (`executed_of_again`). So no loop goes
round more often than its amplifiers have executed instructions, but for once.
-/

namespace Wordcode

open Machine

namespace Circuit

variable {fuel k : Nat} {phases program held given : List Int} {signal : Int}
  {ms ns : List Machine} {circuit next : Circuit} {journal : Journal} {a m : Machine}
  {ring ring' : List Station} {r : Except Interrupt Swept} {swept : Swept}
  {state : Circuit × List Int} {result : Except CircuitError Int}

/-! ## Instructions executed -/

/-- The number of instructions that amplifiers have executed. -/
def executed : List Machine → Nat
  | [] => 0
  | m :: ms => m.counters.steps + executed ms

theorem executed_cons : executed (m :: ms) = m.counters.steps + executed ms := rfl

theorem executed_takeJournal : executed (ms.map (·.takeJournal.2)) = executed ms := by
  induction ms with
  | nil => rfl
  | cons m ms ih => rw [List.map_cons, executed_cons, executed_cons, ih, Machine.takeJournal]

/-- A service takes no step back, and with progress it has taken one. -/
theorem steps_serve {r : Except Interrupt Bool} (hs : serve fuel m = some (r, a)) :
    m.counters.steps ≤ a.counters.steps ∧ (r = .ok true → m.counters.steps < a.counters.steps) := by
  obtain ⟨k, ⟨t, p⟩, -, hk, hr, -⟩ := exists_stateAfter_of_loop hs
  let P : Machine × Bool → Prop := fun s =>
    m.counters.steps ≤ s.1.counters.steps ∧ (s.2 = true → m.counters.steps < s.1.counters.steps)
  have hP : ∀ s t, P s → serviceRound s = .again t → P t := by
    rintro ⟨b, u⟩ ⟨c, v⟩ ⟨hb, -⟩ hbc
    obtain ⟨-, -, s, hs, hw⟩ := serviceRound_eq_again hbc
    have hc : c.counters.steps = b.counters.steps + 1 := steps_of_executed hs hw
    have hlt : m.counters.steps < c.counters.steps := hc ▸ Nat.lt_succ_of_le hb
    exact ⟨Nat.le_of_lt hlt, fun _ => hlt⟩
  have h0 : P (m, false) := ⟨Nat.le_refl _, nofun⟩
  obtain ⟨hle, hlt⟩ := stateAfter_invariant hP h0 hk
  rcases serviceRound_eq_done hr with ⟨-, rfl, rfl⟩ | ⟨-, hw, rfl⟩ | ⟨-, f, hf, rfl⟩
  · exact ⟨hle, fun h => hlt (Except.ok.inj h)⟩
  · rw [steps_of_waiting hw]
    exact ⟨hle, fun h => hlt (Except.ok.inj h)⟩
  · rw [steps_of_error hf]
    exact ⟨hle, nofun⟩

theorem executed_sweep (hs : sweep (serve fuel) ms given = some (r, ns)) :
    executed ms ≤ executed ns ∧
      ∀ swept, r = .ok swept → swept.progressed = true → executed ms < executed ns := by
  induction ms generalizing given r ns with
  | nil =>
    rw [sweep_nil] at hs
    cases hs
    exact ⟨Nat.le_refl _, fun swept hr hp => by cases hr; cases hp⟩
  | cons m rest ih =>
    cases hd : serve fuel (m.addInputs given) with
    | none => simp [sweep, hd] at hs
    | some q =>
      obtain ⟨x, a⟩ := q
      have hm : m.counters.steps ≤ a.counters.steps := (steps_serve hd).1
      cases x with
      | error e =>
        rw [sweep_cons_of_error hd] at hs
        cases hs
        rw [executed_cons, executed_cons]
        exact ⟨Nat.add_le_add_right hm _, fun swept hr => by cases hr⟩
      | ok p =>
        rw [sweep_cons_of_ok hd] at hs
        obtain ⟨⟨r', ns'⟩, hrest, hr⟩ := Option.map_eq_some_iff.1 hs
        cases hr
        obtain ⟨hle, hlt⟩ := ih hrest
        rw [executed_cons, executed_cons]
        refine ⟨Nat.add_le_add hm hle, fun swept hr hp => ?_⟩
        cases r' with
        | error e => cases hr
        | ok swept' =>
          cases hr
          rcases Bool.or_eq_true_iff.1 hp with hp | hp
          · have hm' : m.counters.steps < a.counters.steps := (steps_serve hd).2 (congrArg _ hp)
            exact Nat.add_lt_add_of_lt_of_le hm' hle
          · exact Nat.add_lt_add_of_le_of_lt hm (hlt swept' rfl hp)

/-! ## What a completed round leaves -/

theorem dormant_of_sweep (hs : sweep (serve fuel) ms given = some (.ok swept, ns)) :
    ∀ b ∈ ns, b.Dormant := by
  intro b hb
  obtain ⟨-, v, -, -, hserves⟩ := sweep_serves hs
  obtain ⟨i, hi⟩ := List.getElem?_of_mem hb
  obtain ⟨a, -, hab⟩ := hserves i b hi
  exact hab.dormant

theorem waiting_of_sweep (hs : sweep (serve fuel) ms given = some (.ok swept, ns))
    (hp : swept.progressed = false) (hr : ∃ m ∈ ms, m.IsRunning) :
    ∃ b ∈ ns, b.status = .waiting := by
  obtain ⟨m, hm, hrun⟩ := hr
  obtain ⟨hlen, v, -, -, hserves⟩ := sweep_serves hs
  obtain ⟨i, hi⟩ := List.getElem?_of_mem hm
  have hlt : i < ns.length := hlen ▸ (List.getElem?_eq_some_iff.1 hi).1
  obtain ⟨a, ha, hab⟩ := hserves i _ (List.getElem?_eq_getElem hlt)
  cases hi.symm.trans ha
  exact ⟨ns[i], List.getElem_mem hlt, (hab.idle hp).2 hrun⟩

/-- In the given state a feedback loop makes a round whose sweep comes to its
end and hands out `held`, also if the round is then found to be a deadlock. -/
structure Completes (fuel : Nat) (state : Circuit × List Int) (next : Circuit) (held : List Int) :
    Prop where
  running : ∃ m ∈ state.1.amplifiers, m.IsRunning
  swept : ∃ swept ms, sweep (serve fuel) state.1.amplifiers state.2 = some (.ok swept, ms) ∧
    swept.outputs = held
  left : ∃ result, state.1.round fuel state.2 = some (result, next)

theorem Completes.dormant (h : Completes fuel state next held) :
    ∀ b ∈ next.amplifiers, b.Dormant := by
  intro b hb
  obtain ⟨swept, ms, hsweep, -⟩ := h.swept
  obtain ⟨result, hround⟩ := h.left
  rw [(round_of_sweep hsweep hround).2.1] at hb
  obtain ⟨n, hn, rfl⟩ := List.mem_map.1 hb
  exact (dormant_of_sweep hsweep n hn).takeJournal

/-- Every amplifier has halted, or waits with no input queued, and has no
outputs left. -/
def Settled (circuit : Circuit) : Prop :=
  ∀ m ∈ circuit.amplifiers,
    (m.status = .stopped ∨ m.status = .waiting ∧ m.inputs.toList = []) ∧ m.outputs.toList = []

theorem settled_of_dormant (h : ∀ m ∈ circuit.amplifiers, m.Dormant) : Settled circuit :=
  fun m hm => ⟨(h m hm).rests.imp_right fun ⟨hw, hs⟩ => ⟨hw, hs.inputs⟩, (h m hm).drained⟩

/-- Some amplifier has not halted, and no value is on its way. -/
structure Quiet (circuit : Circuit) (held : List Int) : Prop where
  running : ∃ m ∈ circuit.amplifiers, m.IsRunning
  held : held = []
  queues : ∀ m ∈ circuit.amplifiers, m.IsRunning → m.inputs.toList = [] ∧ m.outputs.toList = []

theorem quiet_of_dormant (h : ∀ m ∈ circuit.amplifiers, m.Dormant)
    (hr : ∃ m ∈ circuit.amplifiers, m.IsRunning) : Quiet circuit [] :=
  ⟨hr, rfl, fun m hm hrun => ⟨((h m hm).waits hrun).2.inputs, (h m hm).drained⟩⟩

/-! ## Dormant circuits -/

/-- A ring of the amplifiers `ms` in which nothing has happened and nothing can:
no value can be passed on, and a step finds no input. -/
structure Still (ms : List Machine) (ring : List Station) : Prop where
  length : ring.length = ms.length
  steps : ∀ (i : Nat) (s : Station) (m : Machine), ring[i]? = some s → ms[i]? = some m →
    s.machine.counters.steps = m.counters.steps
  starved : ∀ s ∈ ring, s.machine.IsRunning → ∃ n, Machine.step s.machine = .ok .waiting n
  silent : ∀ i, move ring (.pass i) = none

/-- No schedule has any amplifier execute an instruction or pass on a value. -/
def Stuck (circuit : Circuit) : Prop :=
  ∀ schedule ring, moves circuit.stations schedule = some ring → Still circuit.amplifiers ring

/-- What every move keeps in a ring of dormant amplifiers. -/
structure Sleeps (ms : List Machine) (ring : List Station) : Prop where
  length : ring.length = ms.length
  dormant : ∀ s ∈ ring, s.machine.Dormant
  steps : ∀ (i : Nat) (s : Station) (m : Machine), ring[i]? = some s → ms[i]? = some m →
    s.machine.counters.steps = m.counters.steps

namespace Sleeps

theorem silent (h : Sleeps ms ring) (i : Nat) : move ring (.pass i) = none := by
  cases hs : ring[i]? with
  | none => simp only [move, hs]
  | some s => simp only [move, hs, (h.dormant s (List.mem_of_getElem? hs)).drained]

theorem still (h : Sleeps ms ring) : Still ms ring where
  length := h.length
  steps := h.steps
  starved s hs hr := by
    obtain ⟨n, hn, -⟩ := (h.dormant s hs).step hr
    exact ⟨n, hn⟩
  silent := h.silent

theorem step (h : Sleeps ms ring) (hm : move ring (.step i) = some ring') : Sleeps ms ring' := by
  obtain ⟨hlen, s, hs, hrun, hmoved⟩ := move_step_cases hm
  obtain ⟨n, hn, hdormant, hsteps⟩ := (h.dormant s (List.mem_of_getElem? hs)).step hrun
  refine ⟨hlen.trans h.length, fun t' ht' => ?_, fun j t' m ht' hm => ?_⟩
  · obtain ⟨j, hj⟩ := List.getElem?_of_mem ht'
    obtain ⟨t, ht, rfl⟩ := hmoved j t' hj
    split
    · next hij =>
      subst hij
      cases hs.symm.trans ht
      show s.machine.after.Dormant
      rwa [after_of_ok hn]
    · exact h.dormant t (List.mem_of_getElem? ht)
  · obtain ⟨t, ht, rfl⟩ := hmoved j t' ht'
    split
    · next hij =>
      subst hij
      cases hs.symm.trans ht
      show s.machine.after.counters.steps = _
      rw [after_of_ok hn, hsteps]
      exact h.steps i s m hs hm
    · exact h.steps j t m ht hm

theorem moves {schedule : List Move} (h : Sleeps ms ring)
    (hm : Circuit.moves ring schedule = some ring') : Sleeps ms ring' := by
  induction schedule generalizing ring with
  | nil =>
    cases hm
    exact h
  | cons m schedule ih =>
    obtain ⟨ring'', hm', hrest⟩ := Option.bind_eq_some_iff.1 hm
    cases m with
    | step i => exact ih (h.step hm') hrest
    | pass i => cases (h.silent i).symm.trans hm'

end Sleeps

theorem stuck_of_dormant (h : ∀ m ∈ circuit.amplifiers, m.Dormant) : Stuck circuit := by
  intro schedule ring hm
  have hstart : Sleeps circuit.amplifiers circuit.stations := by
    refine ⟨List.length_map .., fun s hs => ?_, fun i s m hs hm => ?_⟩
    · obtain ⟨m, hm, rfl⟩ := List.mem_map.1 hs
      exact h m hm
    · rw [stations, List.getElem?_map, hm] at hs
      cases hs
      rfl
  exact (hstart.moves hm).still

theorem serve_of_dormant (h : m.Dormant) :
    ∃ n, serve 1 m = some (.ok false, n) ∧ n.outputs.toList = [] := by
  by_cases hrun : m.IsRunning
  · obtain ⟨n, hn, hdormant, -⟩ := h.step hrun
    have hr : serviceRound (m, false) = .done (.ok false, n) := by
      simp only [serviceRound, if_pos hrun, tryStep_of_waiting hn]
    exact ⟨n, loop_succ_of_done hr, hdormant.drained⟩
  · have hr : serviceRound (m, false) = .done (.ok false, m) := by
      simp only [serviceRound, if_neg hrun]
    exact ⟨m, loop_succ_of_done hr, h.drained⟩

theorem sweep_of_dormant (h : ∀ m ∈ ms, m.Dormant) :
    ∃ ns, sweep (serve 1) ms [] = some (.ok ⟨[], false⟩, ns) := by
  induction ms with
  | nil => exact ⟨[], rfl⟩
  | cons m rest ih =>
    obtain ⟨n, hn, ho⟩ := serve_of_dormant (h m List.mem_cons_self)
    obtain ⟨ns, hns⟩ := ih fun m hm => h m (List.mem_cons_of_mem _ hm)
    have hd : serve 1 (m.addInputs []) = some (.ok false, n) := by
      simpa only [addInputs, Queue.extend_nil] using hn
    rw [sweep_cons_of_ok hd, ho, hns]
    exact ⟨_, rfl⟩

theorem round_of_idle (hs : sweep (serve fuel) circuit.amplifiers held = some (.ok swept, ms))
    (hp : swept.progressed = false) (hr : ∃ m ∈ circuit.amplifiers, m.IsRunning) :
    ∃ next, circuit.round fuel held = some (.error .deadlocked, next) ∧
      next.rounds = circuit.rounds + 1 := by
  obtain ⟨b, hb, hw⟩ := waiting_of_sweep hs hp hr
  have hmem : ∃ m ∈ ms.map (·.takeJournal.2), m.status = .waiting :=
    ⟨b.takeJournal.2, List.mem_map_of_mem hb, hw⟩
  simp only [round, pass, hs, Option.bind_eq_bind, Option.bind_some, Option.pure_def,
    collectJournals]
  rw [if_pos ⟨hp, hmem⟩]
  exact ⟨_, rfl, rfl⟩

/-- The next round of a dormant circuit finds the deadlock. -/
theorem round_of_dormant (h : ∀ m ∈ circuit.amplifiers, m.Dormant)
    (hr : ∃ m ∈ circuit.amplifiers, m.IsRunning) :
    ∃ next, circuit.round 1 [] = some (.error .deadlocked, next) ∧
      next.rounds = circuit.rounds + 1 := by
  obtain ⟨ns, hns⟩ := sweep_of_dormant h
  exact round_of_idle hns rfl hr

/-! ## Rounds and instructions -/

theorem executed_of_round {result : Except CircuitError (List Int)}
    (hs : circuit.round fuel held = some (result, next)) :
    executed circuit.amplifiers ≤ executed next.amplifiers ∧ next.rounds = circuit.rounds + 1 := by
  obtain ⟨r, ms, hsweep⟩ := exists_sweep_of_round hs
  obtain ⟨-, hnext, hrounds⟩ := round_of_sweep hsweep hs
  rw [hnext, executed_takeJournal]
  exact ⟨(executed_sweep hsweep).1, hrounds⟩

/-- A round after which the loop goes on has executed an instruction. -/
theorem executed_of_again (h : feedbackRound fuel state = .again (next, held)) :
    executed state.1.amplifiers < executed next.amplifiers ∧
      next.rounds = state.1.rounds + 1 := by
  obtain ⟨hr, hs⟩ := feedbackRound_eq_again h
  obtain ⟨r, ms, hsweep⟩ := exists_sweep_of_round hs
  obtain ⟨hc, hnext, hrounds⟩ := round_of_sweep hsweep hs
  cases hc with
  | @passed swept =>
    refine ⟨?_, hrounds⟩
    rw [hnext, executed_takeJournal]
    refine (executed_sweep hsweep).2 swept rfl ?_
    cases hp : swept.progressed with
    | true => rfl
    | false =>
      -- An amplifier that was running would now wait, and the round be a deadlock.
      obtain ⟨last, hlast, -⟩ := round_of_idle hsweep hp hr
      cases hlast.symm.trans hs

theorem rounds_inject (hb : build program phases journal = .ok circuit) :
    (circuit.inject signal).rounds = 0 := by
  unfold build at hb
  split at hb
  · cases hb
  · cases hb
    unfold inject
    split <;> rfl

theorem rounds_le_executed (hb : build program phases journal = .ok circuit)
    (hk : stateAfter (feedbackRound fuel) k (circuit.inject signal, []) = some state) :
    state.1.rounds ≤ executed state.1.amplifiers := by
  let P : Circuit × List Int → Prop := fun s => s.1.rounds ≤ executed s.1.amplifiers
  have hP : ∀ s t, P s → feedbackRound fuel s = .again t → P t := by
    intro s t hs ht
    obtain ⟨hlt, hrounds⟩ := executed_of_again ht
    show t.1.rounds ≤ _
    rw [hrounds]
    exact Nat.succ_le_of_lt (Nat.lt_of_le_of_lt hs hlt)
  have h0 : P (circuit.inject signal, []) := by
    show (circuit.inject signal).rounds ≤ _
    rw [rounds_inject hb]
    exact Nat.zero_le _
  have hstate : P state := stateAfter_invariant hP h0 hk
  exact hstate

theorem rounds_close (h : circuit.close = (result, next)) :
    next.rounds = circuit.rounds ∧ next.amplifiers = circuit.amplifiers := by
  unfold close at h
  split at h <;> cases h <;> exact ⟨rfl, rfl⟩

theorem rounds_le_of_runFeedback (hb : build program phases journal = .ok circuit)
    (h : runFeedback fuel circuit signal = some (result, next)) :
    next.rounds ≤ 1 + executed next.amplifiers := by
  obtain ⟨k, last, held, hk, ⟨-, ⟨e, -, hround⟩, -⟩ | ⟨-, hclose, -⟩⟩ := runFeedback_cases h
  · have hle : last.rounds ≤ executed last.amplifiers := rounds_le_executed hb hk
    obtain ⟨hmono, hrounds⟩ := executed_of_round hround
    omega
  · have hle : last.rounds ≤ executed last.amplifiers := rounds_le_executed hb hk
    obtain ⟨hrounds, hams⟩ := rounds_close hclose
    rw [hrounds, hams]
    omega

/-! ## Deadlocks -/

/-- A loop that ends in a deadlock has just completed a round after which no
value is on its way. -/
theorem quiet_of_deadlock (hb : build program phases journal = .ok circuit)
    (h : runFeedback fuel circuit signal = some (.error .deadlocked, next)) :
    ∃ k state held,
      stateAfter (feedbackRound fuel) k (circuit.inject signal, []) = some state ∧
      Completes fuel state next held ∧ Quiet next held ∧ Stuck next := by
  obtain ⟨k, last, held, hk, ⟨hr, ⟨e, he, hround⟩, -⟩ | ⟨-, hclose, -⟩⟩ := runFeedback_cases h
  · cases he
    obtain ⟨r, ms, hsweep⟩ := exists_sweep_of_round hround
    obtain ⟨w, hp⟩ := passes_of_sweep hsweep hround
    cases (round_of_sweep hsweep hround).1 with
    | @deadlocked swept hidle hw =>
      have hc : Completes fuel (last, held) next swept.outputs :=
        ⟨hr, ⟨swept, ms, hsweep, rfl⟩, ⟨_, hround⟩⟩
      obtain ⟨m, hm, -⟩ := hr
      have hnone := (flowing_of_feedback hb hk).outputs_of_idle hp (List.ne_nil_of_mem hm) hidle
      obtain ⟨b, hb', hwait⟩ := hw
      have hrun : b.IsRunning := fun hstop => by cases hwait.symm.trans hstop
      rw [hnone] at hc
      exact ⟨k, (last, held), [], hk, hc, quiet_of_dormant hc.dormant ⟨b, hb', hrun⟩,
        stuck_of_dormant hc.dormant⟩
  · cases (close_eq_error hclose).1

/-- After a round that leaves no value on its way the loop ends in a deadlock,
at the latest in the next round. -/
theorem deadlock_of_quiet
    (hk : stateAfter (feedbackRound fuel) k (circuit.inject signal, []) = some state)
    (hc : Completes fuel state next held) (hq : Quiet next held) :
    ∃ bound last,
      (∀ n, bound ≤ n → runFeedback n circuit signal = some (.error .deadlocked, last)) ∧
      last.rounds ≤ next.rounds + 1 := by
  obtain ⟨swept, ms, hsweep, hheld⟩ := hc.swept
  obtain ⟨result, hround⟩ := hc.left
  obtain ⟨hconcludes, -⟩ := round_of_sweep hsweep hround
  cases hconcludes with
  | deadlocked =>
    -- The round itself found the deadlock.
    obtain ⟨bound, hbound⟩ := exists_runFeedback hk (feedbackRound_of_round_error hc.running hround)
    exact ⟨bound, next, hbound, Nat.le_succ _⟩
  | passed =>
    -- The loop goes on with dormant amplifiers, and holds nothing for them.
    rw [hheld, hq.held] at hround
    obtain ⟨last, hlast, hrounds⟩ := round_of_dormant hc.dormant hq.running
    have hagain : feedbackRound fuel state = .again (next, []) :=
      feedbackRound_of_round_ok hc.running hround
    have hk' : stateAfter (feedbackRound fuel) (k + 1) (circuit.inject signal, []) =
        some (next, []) := by
      rw [stateAfter_add_of_stateAfter hk, stateAfter_succ_of_again hagain, stateAfter_zero]
    obtain ⟨bound, hbound⟩ :=
      exists_runFeedback hk' (feedbackRound_of_round_error hq.running hlast)
    exact ⟨bound, last, hbound, Nat.le_of_eq hrounds⟩

/-- Deadlocks are found, and only deadlocks. Every completed round leaves each
amplifier halted, or waiting with no input queued, and no outputs. A loop ends
in a deadlock only after a round that leaves some amplifier running and no value
on its way, so that no schedule has any amplifier get on; and after such a round
it does so at the latest in the next one. Every round after which the loop goes
on has executed an instruction, so that there are no more rounds than
instructions were executed, but for one. -/
theorem feedback_finds_deadlocks (program phases : List Int) (signal : Int) (journal : Journal)
    (fuel : Nat) {circuit : Circuit} (hb : build program phases journal = .ok circuit) :
    (∀ k state next held,
      stateAfter (feedbackRound fuel) k (circuit.inject signal, []) = some state →
      Completes fuel state next held → Settled next) ∧
    (∀ next, runFeedback fuel circuit signal = some (.error .deadlocked, next) →
      ∃ k state held,
        stateAfter (feedbackRound fuel) k (circuit.inject signal, []) = some state ∧
        Completes fuel state next held ∧ Quiet next held ∧ Stuck next) ∧
    (∀ k state next held,
      stateAfter (feedbackRound fuel) k (circuit.inject signal, []) = some state →
      Completes fuel state next held → Quiet next held →
      ∃ bound last,
        (∀ n, bound ≤ n → runFeedback n circuit signal = some (.error .deadlocked, last)) ∧
        last.rounds ≤ next.rounds + 1) ∧
    (∀ k state, stateAfter (feedbackRound fuel) k (circuit.inject signal, []) = some state →
      state.1.rounds ≤ executed state.1.amplifiers ∧
      ∀ next held, feedbackRound fuel state = .again (next, held) →
        executed state.1.amplifiers < executed next.amplifiers) ∧
    (∀ result next, runFeedback fuel circuit signal = some (result, next) →
      next.rounds ≤ 1 + executed next.amplifiers) ∧
    CircuitError.deadlocked.message = "Amplifier network deadlocked waiting for input" := by
  refine ⟨fun k state next held _ hc => ?_, fun next h => ?_, fun k state next held hk hc hq => ?_,
    fun k state hk => ⟨?_, fun next held h => ?_⟩, fun result next h => ?_, rfl⟩
  · exact settled_of_dormant hc.dormant
  · exact quiet_of_deadlock hb h
  · exact deadlock_of_quiet hk hc hq
  · exact rounds_le_executed hb hk
  · exact (executed_of_again h).1
  · exact rounds_le_of_runFeedback hb h

/-- Why a loop has failed. -/
def failure? : Except CircuitError Int → Option CircuitError
  | .ok _ => none
  | .error e => some e

theorem failure?_eq_some_iff {e : CircuitError} : failure? result = some e ↔ result = .error e := by
  cases result <;> simp [failure?]

/-- Two amplifiers that repeat one value and wait for one more. The first gets
it from the second, and halts. -/
theorem feedback_finds_deadlocks_repeaters : ∃ circuit next held,
    build [3, 0, 3, 1, 4, 1, 3, 2, 99] [5, 6] (.empty false) = .ok circuit ∧
    runFeedback 9 circuit 7 = some (.error .deadlocked, next) ∧
    next.rounds = 3 ∧ executed next.amplifiers = 8 ∧ Quiet next held ∧ Stuck next := by
  obtain ⟨circuit, hb⟩ : ∃ circuit,
      build [3, 0, 3, 1, 4, 1, 3, 2, 99] [5, 6] (.empty false) = .ok circuit := ⟨_, rfl⟩
  have hv : (runFeedback 9 circuit 7).map
      (fun p => (failure? p.1, p.2.rounds, executed p.2.amplifiers)) =
        some (some .deadlocked, 3, 8) := by
    cases hb
    decide +kernel
  obtain ⟨⟨result, next⟩, hnext, hp⟩ := Option.map_eq_some_iff.1 hv
  simp only [Prod.mk.injEq, failure?_eq_some_iff] at hp
  obtain ⟨rfl, hrounds, hexecuted⟩ := hp
  obtain ⟨k, state, held, -, -, hq, hstuck⟩ :=
    (feedback_finds_deadlocks _ _ 7 _ 9 hb).2.1 next hnext
  exact ⟨circuit, next, held, hb, hnext, hrounds, hexecuted, hq, hstuck⟩

end Circuit

end Wordcode
