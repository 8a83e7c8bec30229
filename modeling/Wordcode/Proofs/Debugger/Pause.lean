import Mathlib.Logic.Function.Iterate
import Mathlib.Order.Bounds.Defs
import Wordcode.Proofs.Debugger.Course

/-!
# Where runs pause

A run to the end and a run to the next output make one step after another until there is
a reason to pause (`Pauses`): a step fails, it does not leave the machine running, it
comes to a breakpoint, or it outputs where outputs are looked for. Each round of the two
loops goes on iff there is none (`Watched`). So as many steps are made as the least number
after which there is a reason, and at least one (`runs_pause_at_first_reason`).

Without breakpoints a run to the next output does what the machine itself does on its way
to the next output (`runUntilOutput_of_loop`).
-/

namespace Wordcode

namespace Machine

/-- The next step executes an output instruction, or fails in it. -/
def OutputsNext (m : Machine) : Prop := ∃ i ∈ m.next?, i.opcode = .output

instance (m : Machine) : Decidable m.OutputsNext :=
  inferInstanceAs (Decidable (∃ i ∈ m.next?, i.opcode = .output))

variable {m n : Machine} {s : Status} {k : Nat}

theorem sends_ne_nil_iff (hs : step m = .ok s n) : m.sends ≠ [] ↔ m.OutputsNext := by
  unfold sends OutputsNext
  rw [hs]
  constructor
  · intro h
    split at h
    · next hi _ => exact ⟨_, hi, rfl⟩
    · exact absurd rfl h
  · rintro ⟨i, hi, hop⟩
    rw [Option.mem_def.1 hi]
    cases i with
    | output mode => exact List.cons_ne_nil _ _
    | _ => cases hop

theorem sends_cases (m : Machine) : m.sends = [] ∨ ∃ value, m.sends = [value] := by
  unfold sends
  split
  · exact .inr ⟨_, rfl⟩
  · exact .inl rfl

theorem size_outputs_of_ok (hs : step m = .ok s n) :
    n.outputs.size = m.outputs.size + m.sends.length := by
  have ho := congrArg List.length m.trades_step.outputs
  rwa [after_of_ok hs, List.length_append, Queue.length_toList, Queue.length_toList] at ho

/-- A step adds to the outputs iff it executes an output instruction. -/
theorem size_outputs_lt_iff (hs : step m = .ok s n) :
    m.outputs.size < n.outputs.size ↔ m.OutputsNext := by
  rw [size_outputs_of_ok hs, ← sends_ne_nil_iff hs, ← List.length_pos_iff]
  omega

theorem outputsNext_of_drained_eq (h : m.drained = n.drained) :
    m.OutputsNext ↔ n.OutputsNext := by
  have hnext : m.next? = n.next? := (congrArg next? h :)
  rw [OutputsNext, OutputsNext, hnext]

theorem pc_of_drained_eq (h : m.drained = n.drained) : m.pc = n.pc := (congrArg pc h :)

end Machine

namespace Debugger

open Listing Machine

/-- There is a reason to pause after the step on a machine: the step fails, it does not
leave the machine running, or it leads to a breakpoint; where a run is to pause at outputs,
also that it executes an output instruction. -/
def Pauses (breakpoints : List Int) (atOutput : Bool) (m : Machine) : Prop :=
  (∃ f n, Machine.step m = .error f n) ∨ m.after.status ≠ .running ∨ m.after.pc ∈ breakpoints ∨
    (atOutput = true ∧ m.OutputsNext)

/-- It has ended early because a refresh failed. -/
def RefreshFails {α : Type} (r : SessionResult α) : Prop :=
  (∃ e, error? r = some (.unlisted e)) ∨ ∃ e, error? r = some (.tooManyDigits e)

variable {breakpoints : List Int} {atOutput : Bool} {fuel k : Nat} {d e : Debugger}
  {m n : Machine} {history front : List Machine} {pause : Pause} {r : SessionResult Unit}

/-! ## Reasons -/

theorem pauses_of_step (hs : Machine.step m = .ok .running n) :
    Pauses breakpoints atOutput m ↔ n.pc ∈ breakpoints ∨ (atOutput = true ∧ m.OutputsNext) := by
  have hstatus : n.status = .running := status_eq_of_step hs
  simp only [Pauses, hs, after_of_ok hs, hstatus, reduceCtorEq, exists_false, ne_eq,
    not_true_eq_false, false_or]

/-- A step that ends a run is a reason whatever the breakpoints are. -/
theorem pauses_of_ends (h : m.tryStep.1 ≠ .progressed .running) :
    Pauses breakpoints atOutput m := by
  cases hs : Machine.step m with
  | error f n => exact .inl ⟨f, n, hs⟩
  | ok s n =>
    refine .inr (.inl ?_)
    rw [after_of_ok hs, status_eq_of_step hs]
    rintro rfl
    exact h (by rw [tryStep_of_ok hs nofun])

/-- Outputs that are not collected yet play no part. -/
theorem pauses_of_drained_eq (h : m.drained = n.drained) :
    Pauses breakpoints atOutput m ↔ Pauses breakpoints atOutput n := by
  obtain ⟨hfirst, hafter⟩ := tryStep_of_drained_eq h
  by_cases hm : m.tryStep.1 = .progressed .running
  · obtain ⟨m', hs⟩ := m.running_or_ends.resolve_right (absurd hm)
    obtain ⟨n', hs'⟩ := n.running_or_ends.resolve_right (absurd (hfirst.symm.trans hm))
    rw [after_of_ok hs, after_of_ok hs'] at hafter
    rw [pauses_of_step hs, pauses_of_step hs', pc_of_drained_eq hafter,
      outputsNext_of_drained_eq h]
  · exact iff_of_true (pauses_of_ends hm) (pauses_of_ends (hfirst ▸ hm))

/-! ## Steps in a row -/

theorem Course.isRunning (h : Course d history e) (hd : d.machine.IsRunning) :
    e.machine.IsRunning := by
  induction h with
  | refl => exact hd
  | step _ hs _ => exact running_of_step_running hs
  | refresh _ hr ih =>
    rw [(of_refresh hr).1]
    exact ih
  | mark _ _ _ ih => exact ih

/-- The machine as each of the first `k` steps in a row finds it, without its outputs. -/
def stepsFrom (m : Machine) (k : Nat) : List Machine :=
  (List.range k).map fun j => (after^[j] m).drained

theorem stepsFrom_succ : stepsFrom m (k + 1) = stepsFrom m k ++ [(after^[k] m).drained] := by
  rw [stepsFrom, List.range_succ, List.map_append]
  rfl

/-- A course finds the machine as steps in a row do. -/
theorem Course.stepsFrom (h : Course d history e) :
    history.map drained = stepsFrom d.machine history.length ∧
      e.machine.drained = (after^[history.length] d.machine).drained := by
  induction h with
  | refl => exact ⟨rfl, rfl⟩
  | @step e n history _ hs ih =>
    obtain ⟨hhistory, he⟩ := ih
    rw [List.map_append, List.length_append, List.length_singleton, stepsFrom_succ, hhistory,
      List.map_singleton, he, Function.iterate_succ_apply', ← after_of_ok hs]
    exact ⟨rfl, (tryStep_of_drained_eq he).2⟩
  | refresh _ hr ih =>
    rw [(of_refresh hr).1]
    exact ih
  | mark _ _ _ ih => exact ih

/-- So does every action, and it leaves the machine as the last step does. -/
theorem Performs.stepsFrom (h : Performs d history r) :
    history.map drained = Debugger.stepsFrom d.machine history.length ∧
      (leaves r).machine.drained = (after^[history.length] d.machine).drained := by
  cases h with
  | rests h =>
    rw [leaves_refresh.1]
    exact h.stepsFrom
  | @ends e history pause n h hm ht =>
    obtain ⟨hhistory, he⟩ := h.stepsFrom
    obtain ⟨rfl, -, -⟩ := ends_of_tick hm ht
    have hleft : (leaves (conclude pause { e with machine := e.machine.after })).machine.drained =
        e.machine.after.drained := by
      rcases (leaves_conclude pause { e with machine := e.machine.after }).1 with hl | hl
      · rw [hl]
        rfl
      · rw [hl]
    rw [List.map_append, List.length_append, List.length_singleton, stepsFrom_succ, hhistory,
      List.map_singleton, he, Function.iterate_succ_apply', hleft]
    exact ⟨rfl, (tryStep_of_drained_eq he).2⟩
  | idles => exact ⟨rfl, rfl⟩
  | marks =>
    obtain ⟨breakpoints, screen, hl⟩ := leaves_toggleBreakpoint (d := d)
    rw [hl]
    exact ⟨rfl, rfl⟩

/-! ## The least number of steps -/

/-- A history with a reason to pause after its last step only is as long as the least
number of steps after which there is one. -/
theorem isLeast_length (hsteps : (front ++ [m]).map drained = stepsFrom n (front ++ [m]).length)
    (hfront : ∀ a ∈ front, ¬ Pauses breakpoints atOutput a)
    (hm : Pauses breakpoints atOutput m) :
    IsLeast {k | 1 ≤ k ∧ Pauses breakpoints atOutput (after^[k - 1] n)}
      (front ++ [m]).length := by
  rw [List.map_append, List.length_append, List.length_singleton, stepsFrom_succ] at hsteps
  obtain ⟨hrow, hlast⟩ := List.append_inj' hsteps rfl
  rw [List.length_append, List.length_singleton]
  constructor
  · refine ⟨Nat.le_add_left .., ?_⟩
    rwa [Nat.add_sub_cancel, ← pauses_of_drained_eq (List.singleton_inj.1 hlast)]
  · rintro k ⟨hk, hpause⟩
    by_contra hlt
    have hmem : (after^[k - 1] n).drained ∈ stepsFrom n front.length :=
      List.mem_map_of_mem (List.mem_range.2 (by omega))
    rw [← hrow] at hmem
    obtain ⟨a, ha, hdrained⟩ := List.mem_map.1 hmem
    exact hfront a ha ((pauses_of_drained_eq hdrained).2 hpause)

/-! ## Loops -/

variable {σ : Type} {next : σ → Progress σ (SessionResult Pause)} {view : σ → Debugger}
  {keep : σ → Prop} {states : List σ} {s t : σ} {result : SessionResult Pause}

/-- As long as `keep` holds, which it does from round to round, a loop goes on iff there
is no reason to pause, unless a refresh fails. -/
structure Watched (next : σ → Progress σ (SessionResult Pause)) (view : σ → Debugger)
    (keep : σ → Prop) (breakpoints : List Int) (atOutput : Bool) : Prop where
  again : ∀ {s t}, keep s → next s = .again t →
    keep t ∧ ¬ Pauses breakpoints atOutput (view s).machine
  done : ∀ {s r}, keep s → next s = .done r → (view s).machine.IsRunning →
    Pauses breakpoints atOutput (view s).machine ∨ RefreshFails r

/-- Each round in the states visited so far made a step, after which there was no reason to
pause. -/
structure Unpaused (view : σ → Debugger) (keep : σ → Prop) (breakpoints : List Int)
    (atOutput : Bool) (states : List σ) (t : σ) : Prop where
  keep : keep t
  length : (steppedOn view states).length = states.length
  no_reason : ∀ a ∈ steppedOn view states, ¬ Pauses breakpoints atOutput a

theorem Unpaused.again (hp : Paced next view)
    (hw : Watched next view keep breakpoints atOutput)
    (h : Unpaused view keep breakpoints atOutput states s) (hst : next s = .again t) :
    Unpaused view keep breakpoints atOutput (states ++ [s]) t := by
  obtain ⟨ht, hpause⟩ := hw.again h.keep hst
  obtain ⟨n, htick, -⟩ := hp.again hst
  have hm := running_of_step (step_of_tick htick)
  refine ⟨ht, ?_, ?_⟩
  · rw [steppedOn_of_running hm, List.length_append, List.length_append, h.length]
    rfl
  · rw [steppedOn_of_running hm, List.forall_mem_append, List.forall_mem_singleton]
    exact ⟨h.no_reason, hpause⟩

theorem Watched.unpaused (hp : Paced next view)
    (hw : Watched next view keep breakpoints atOutput) (hs : keep s)
    (h : stateAfter next k s = some t) :
    Unpaused view keep breakpoints atOutput (visited next k s) t := by
  have hfirst : Unpaused view keep breakpoints atOutput [] s := ⟨hs, rfl, List.forall_mem_nil _⟩
  exact stateAfter_keep (P := Unpaused view keep breakpoints atOutput)
    (fun _ _ _ hu hst => hu.again hp hw hst) hfirst h

/-- A loop that ends has made steps up to the first reason to pause. -/
theorem Watched.split (hp : Paced next view)
    (hw : Watched next view keep breakpoints atOutput) (hs : keep s)
    (h : loop next fuel s = some result) (hm : (view s).machine.IsRunning)
    (hresult : ¬ RefreshFails result) :
    ∃ front m, steppedOn view (visited next fuel s) = front ++ [m] ∧
      (∀ a ∈ front, ¬ Pauses breakpoints atOutput a) ∧ Pauses breakpoints atOutput m := by
  obtain ⟨k, t, -, hk, ht, hv⟩ := exists_stateAfter_of_loop h
  obtain ⟨hkeep, -, hfront⟩ := hw.unpaused hp hs hk
  have hrunning := (hp.course hk).isRunning hm
  refine ⟨steppedOn view (visited next k s), (view t).machine, ?_, hfront, ?_⟩
  · rw [hv, steppedOn_of_running hrunning]
  · exact (hw.done hkeep ht hrunning).resolve_right hresult

/-- A loop ends once there is a reason to pause. -/
theorem Watched.loop_of_pauses (hp : Paced next view)
    (hw : Watched next view keep breakpoints atOutput) (hs : keep s)
    (hpause : Pauses breakpoints atOutput (after^[k] (view s).machine)) :
    ∃ result, loop next (k + 1) s = some result := by
  cases h : loop next (k + 1) s with
  | some result => exact ⟨result, rfl⟩
  | none =>
    obtain ⟨t, ht⟩ := exists_stateAfter_of_loop_eq_none h
    obtain ⟨-, hlength, hnot⟩ := hw.unpaused hp hs ht
    obtain ⟨hsteps, -⟩ := (hp.course ht).stepsFrom
    rw [hlength, length_visited_of_stateAfter ht] at hsteps
    have hmem : (after^[k] (view s).machine).drained ∈ stepsFrom (view s).machine (k + 1) :=
      List.mem_map_of_mem (List.mem_range.2 (Nat.lt_succ_self k))
    rw [← hsteps] at hmem
    obtain ⟨a, ha, hdrained⟩ := List.mem_map.1 hmem
    exact absurd ((pauses_of_drained_eq hdrained).2 hpause) (hnot a ha)

/-- On a machine that has halted the first round is the last. -/
theorem Paced.done_of_not_running (hp : Paced next view) (hm : ¬ (view s).machine.IsRunning) :
    ∃ result, next s = .done result := by
  cases h : next s with
  | again t =>
    obtain ⟨n, ht, -⟩ := hp.again h
    cases (tick_of_not_running hm).symm.trans ht
  | done result => exact ⟨result, rfl⟩

theorem Paced.loop_of_not_running (hp : Paced next view) (hm : ¬ (view s).machine.IsRunning) :
    ∃ result, loop next (k + 1) s = some result := by
  obtain ⟨result, h⟩ := hp.done_of_not_running hm
  exact ⟨result, loop_succ_of_done h⟩

/-- It makes no step. -/
theorem Paced.visited_of_not_running (hp : Paced next view)
    (hm : ¬ (view s).machine.IsRunning) : steppedOn view (visited next fuel s) = [] := by
  cases fuel with
  | zero => rfl
  | succ fuel =>
    obtain ⟨result, h⟩ := hp.done_of_not_running hm
    have hlast : steppedOn view ([] ++ [s]) = steppedOn view [] := steppedOn_of_not_running hm
    rw [visited_succ_of_done h]
    exact hlast

theorem Watched.loop_of_reason (hp : Paced next view)
    (hw : Watched next view keep breakpoints atOutput) (hs : keep s)
    (h : ¬ (view s).machine.IsRunning ∨
      Pauses breakpoints atOutput (after^[k] (view s).machine)) :
    ∃ result, loop next (k + 1) s = some result := by
  rcases h with hm | hpause
  · exact hp.loop_of_not_running hm
  · exact hw.loop_of_pauses hp hs hpause

/-- A run from `m`, whose steps find the machine as `history` tells and which leaves `n`,
makes steps in a row. Unless `m` has halted, they are as many as the least positive number
of steps after which there is a reason to pause. -/
structure PausesFirst (breakpoints : List Int) (atOutput : Bool) (m : Machine)
    (history : List Machine) (n : Machine) : Prop where
  halted : ¬ m.IsRunning → history = []
  least : m.IsRunning →
    IsLeast {k | 1 ≤ k ∧ Pauses breakpoints atOutput (after^[k - 1] m)} history.length
  steps : history.map drained = stepsFrom m history.length
  left : n.drained = (after^[history.length] m).drained

theorem RefreshFails.concludeRun (h : RefreshFails result) :
    RefreshFails (concludeRun result) := by
  cases result with
  | ok pause d =>
    rcases h with ⟨e, h⟩ | ⟨e, h⟩
    · cases h
    · cases h
  | error e d => exact h

theorem Watched.pausesFirst (hp : Paced next view)
    (hw : Watched next view keep breakpoints atOutput) (hs : keep s)
    (h : loop next fuel s = some result)
    (hresult : ¬ RefreshFails (concludeRun result)) :
    PausesFirst breakpoints atOutput (view s).machine (steppedOn view (visited next fuel s))
      (leaves (concludeRun result)).machine := by
  obtain ⟨hsteps, hleft⟩ := (hp.performs h).stepsFrom
  refine ⟨hp.visited_of_not_running, fun hm => ?_, hsteps, hleft⟩
  obtain ⟨front, m, hfront, hnot, hpause⟩ :=
    hw.split hp hs h hm (mt RefreshFails.concludeRun hresult)
  rw [hfront] at hsteps ⊢
  exact isLeast_length hsteps hnot hpause

/-- A loop that pauses at outputs does not make two steps that output. -/
theorem Watched.length_filter_le_one (hp : Paced next view)
    (hw : Watched next view keep breakpoints true) (hs : keep s) :
    ((steppedOn view (visited next fuel s)).filter (·.OutputsNext)).length ≤ 1 := by
  have hnone : ∀ {k t}, stateAfter next k s = some t →
      (steppedOn view (visited next k s)).filter (·.OutputsNext) = [] := by
    intro k t ht
    obtain ⟨-, -, hnot⟩ := hw.unpaused hp hs ht
    refine List.filter_eq_nil_iff.2 fun a ha ho => hnot a ha ?_
    exact .inr (.inr (.inr ⟨rfl, of_decide_eq_true ho⟩))
  cases h : loop next fuel s with
  | none =>
    obtain ⟨t, ht⟩ := exists_stateAfter_of_loop_eq_none h
    rw [hnone ht]
    exact Nat.zero_le 1
  | some result =>
    obtain ⟨k, t, -, hk, -, hv⟩ := exists_stateAfter_of_loop h
    rw [hv]
    by_cases hm : (view t).machine.IsRunning
    · rw [steppedOn_of_running hm, List.filter_append, hnone hk]
      exact List.length_filter_le ..
    · rw [steppedOn_of_not_running hm, hnone hk]
      exact Nat.zero_le 1

/-! ## The two runs -/

theorem breakpoints_of_refresh (h : refresh d = .ok () e) : e.breakpoints = d.breakpoints := by
  have hr := refreshes d
  rw [h] at hr
  cases hr with
  | drawn => rfl

theorem refreshFails_of_refresh {error : DebuggerError} (h : refresh d = .error error e) :
    RefreshFails (.error error e : SessionResult Pause) := by
  have hr := refreshes d
  rw [h] at hr
  cases hr with
  | unlisted => exact .inl ⟨_, rfl⟩
  | unwritten => exact .inr ⟨_, rfl⟩

/-- A host without limit writes every number. -/
theorem limit_ne_none_of_refresh {error : TooManyDigits}
    (h : error? (refresh d) = some (.tooManyDigits error)) : d.digitLimit ≠ none := by
  have hr := refreshes d
  generalize refresh d = r at h hr
  cases hr with
  | drawn => cases h
  | unlisted => cases h
  | unwritten hw => exact mt writable_of_none hw

theorem Performs.limit_ne_none {error : TooManyDigits} (h : Performs d history r)
    (he : error? r = some (.tooManyDigits error)) : d.digitLimit ≠ none := by
  cases h with
  | rests h =>
    rw [← h.digitLimit_eq]
    exact limit_ne_none_of_refresh he
  | @ends e _ pause n h =>
    rw [← h.digitLimit_eq]
    cases pause with
    | rest => exact limit_ne_none_of_refresh (d := { e with machine := n }) he
    | failed failure =>
      cases failure with
      | fault f =>
        exact limit_ne_none_of_refresh (d := { e with machine := n, outputLines := _ }) he
      | memoryLimit => cases he
  | idles => cases he
  | marks =>
    obtain ⟨breakpoints, ⟨-, -, screen, ht⟩ | ⟨-, ht⟩ | ⟨hw, -⟩⟩ :=
      toggleBreakpoint_cases (d := d)
    · rw [ht] at he
      cases he
    · rw [ht] at he
      cases he
    · exact fun hnone => hw (writable_of_none hnone).listing

theorem watched_endRound (breakpoints : List Int) :
    Watched endRound Prod.fst (fun s => s.1.breakpoints = breakpoints) breakpoints false where
  again {s t} hkeep h := by
    obtain ⟨d, cycle⟩ := s
    obtain rfl : d.breakpoints = breakpoints := hkeep
    have hnot : ∀ n, tick d.machine = (none, n) → n.pc ∉ d.breakpoints →
        ¬ Pauses d.breakpoints false d.machine := fun n ht hpc => by
      rw [pauses_of_step (step_of_tick ht)]
      exact not_or.2 ⟨hpc, fun h => Bool.false_ne_true h.1⟩
    have hround := endRound_cases d cycle
    rw [h] at hround
    cases hround with
    | goesOn ht hpc => exact ⟨rfl, hnot _ ht hpc⟩
    | @refreshed n e ht hpc hr =>
      have hb : e.breakpoints = { d with machine := n }.breakpoints :=
        breakpoints_of_refresh hr
      exact ⟨hb, hnot n ht hpc⟩
  done {s r} hkeep h hm := by
    obtain ⟨d, cycle⟩ := s
    obtain rfl : d.breakpoints = breakpoints := hkeep
    have hround := endRound_cases d cycle
    rw [h] at hround
    cases hround with
    | ends ht => exact .inl (pauses_of_ends (ends_of_tick hm ht).2.1)
    | breaks ht hpc => exact .inl ((pauses_of_step (step_of_tick ht)).2 (.inl hpc))
    | unlisted _ _ hr => exact .inr (refreshFails_of_refresh hr)

theorem watched_outputRound (breakpoints : List Int) (seen : Nat) :
    Watched (outputRound seen) id
      (fun d => d.breakpoints = breakpoints ∧ d.machine.outputs.size = seen) breakpoints true where
  again {d e} hkeep h := by
    obtain ⟨rfl, rfl⟩ := hkeep
    have hround := outputRound_cases d.machine.outputs.size d
    rw [h] at hround
    cases hround with
    | @goesOn n ht hn hpc =>
      have hs := step_of_tick ht
      have hsize : d.machine.outputs.size ≤ n.outputs.size := by
        rw [size_outputs_of_ok hs]
        exact Nat.le_add_right ..
      refine ⟨⟨rfl, Nat.le_antisymm hn hsize⟩, ?_⟩
      rw [id_eq, pauses_of_step hs, ← size_outputs_lt_iff hs]
      exact not_or.2 ⟨hpc, fun h => Nat.not_lt.2 hn h.2⟩
  done {d r} hkeep h hm := by
    obtain ⟨rfl, rfl⟩ := hkeep
    have hround := outputRound_cases d.machine.outputs.size d
    rw [h] at hround
    cases hround with
    | ends ht => exact .inl (pauses_of_ends (ends_of_tick hm ht).2.1)
    | outputs ht hn =>
      have hs := step_of_tick ht
      exact .inl ((pauses_of_step hs).2 (.inr ⟨rfl, (size_outputs_lt_iff hs).1 hn⟩))
    | breaks ht hpc => exact .inl ((pauses_of_step (step_of_tick ht)).2 (.inl hpc))

/-! ## Runs to an output without breakpoints -/

/-- A step on a machine without outputs leaves one at most. -/
theorem exists_output (ho : m.outputs.toList = []) (hs : Machine.step m = .ok .running n)
    (hn : 0 < n.outputs.size) : ∃ value, n.outputs.toList = [value] := by
  have hsent := m.trades_step.outputs
  rw [after_of_ok hs, ho, List.nil_append] at hsent
  rcases sends_cases m with hnil | ⟨value, hvalue⟩
  · rw [← Queue.length_toList, hsent, hnil] at hn
    exact absurd hn (Nat.lt_irrefl 0)
  · exact ⟨value, hsent.trans hvalue⟩

theorem no_output (hn : n.outputs.size ≤ 0) : n.outputs.toList = [] := by
  rw [← List.length_eq_zero_iff, Queue.length_toList]
  exact Nat.le_zero.1 hn

/-- The lines that the result of a run to the next output adds to the output panel, where
the host can write the value. -/
def resultLines (limit : DigitLimit) : Except Interrupt (Option Int) → List OutputLine
  | .ok (some value) => (limit.front [value]).map .value
  | .error (.failed (.fault f)) => [.error f.message]
  | _ => []

theorem leaves_refresh_of_nil (ho : d.machine.outputs.toList = []) :
    (leaves (refresh d)).machine = d.machine ∧
      (leaves (refresh d)).outputLines.toList = d.outputLines.toList := by
  obtain ⟨hmachine, hlines, -⟩ := leaves_refresh (d := d)
  have hnone : d.digitLimit.front [] = [] := List.takeWhile_nil
  rw [hmachine, hlines, drained_of_nil ho, ho, hnone, List.map_nil, List.append_nil]
  exact ⟨rfl, rfl⟩

theorem leaves_failed_of_nil {failure : Failure} (ho : d.machine.outputs.toList = []) :
    (leaves (conclude (.failed failure) d)).machine = d.machine ∧
      (leaves (conclude (.failed failure) d)).outputLines.toList =
        d.outputLines.toList ++ resultLines d.digitLimit (.error (.failed failure)) := by
  cases failure with
  | fault f =>
    have hreport := leaves_refresh_of_nil
      (d := { d with outputLines := d.outputLines.push (.error f.message) }) ho
    rw [conclude, report_eq]
    rwa [Array.toList_push] at hreport
  | memoryLimit => exact ⟨rfl, (List.append_nil _).symm⟩

/-- A run to the next output that ends with a step ends as the machine itself does. -/
theorem runUntilOutput_of_ends (fuel : Nat) (hm : d.machine.IsRunning)
    (ho : d.machine.outputs.toList = []) (ht : tick d.machine = (some pause, n)) : ∃ result,
      d.machine.runUntilOutput (fuel + 2) = some (result, n) ∧
      (leaves (conclude pause { d with machine := n })).machine = n ∧
      (leaves (conclude pause { d with machine := n })).outputLines.toList =
        d.outputLines.toList ++ resultLines d.digitLimit result := by
  obtain ⟨hafter, hends, -⟩ := ends_of_tick hm ht
  have hn : n.outputs.toList = [] := by
    rw [hafter, ← tryStep_snd, outputs_of_ends hends, ho]
  rw [tick, if_pos hm] at ht
  cases hs : Machine.step d.machine with
  | error f n' =>
    rw [tryStep_of_error hs] at ht
    cases ht
    exact ⟨_, loop_succ_of_done (Seeks.failed ho hm hs).eq, leaves_failed_of_nil hn⟩
  | ok s n' =>
    have hrest := leaves_refresh_of_nil (d := { d with machine := n }) hn
    cases s with
    | running =>
      rw [tryStep_of_ok hs (by decide)] at ht
      cases ht
    | waiting =>
      rw [tryStep_of_waiting hs] at ht
      cases ht
      refine ⟨_, loop_succ_of_done (Seeks.blocked ho hm hs).eq, hrest.1, ?_⟩
      rw [conclude, hrest.2]
      exact (List.append_nil _).symm
    | stopped =>
      rw [tryStep_of_ok hs (by decide)] at ht
      cases ht
      -- One more round finds that the machine has halted.
      have hfirst : d.machine.runUntilOutput (fuel + 2) = n.runUntilOutput (fuel + 1) :=
        loop_succ_of_again (Seeks.stepped ho hm hs (by decide)).eq
      have hlast := (Seeks.exhausted hn (status_eq_of_step hs)).eq
      refine ⟨_, hfirst.trans (loop_succ_of_done hlast), hrest.1, ?_⟩
      rw [conclude, hrest.2]
      exact (List.append_nil _).symm

/-- Without breakpoints and outputs, a run to the next output leaves what the machine
itself does, and shows its result. -/
theorem runUntilOutput_of_loop (hb : d.breakpoints = []) (ho : d.machine.outputs.toList = [])
    (hm : d.machine.IsRunning) (h : loop (outputRound 0) fuel d = some result) : ∃ value,
      d.machine.runUntilOutput (fuel + 1) = some (value, (leaves (concludeRun result)).machine) ∧
      (leaves (concludeRun result)).outputLines.toList =
        d.outputLines.toList ++ resultLines d.digitLimit value := by
  induction fuel generalizing d with
  | zero => cases h
  | succ fuel ih =>
    have hround := outputRound_cases 0 d
    cases hr : outputRound 0 d with
    | again e =>
      rw [hr] at hround
      rw [loop_succ_of_again hr] at h
      cases hround with
      | @goesOn n ht hn =>
        have hs := step_of_tick ht
        obtain ⟨value, hvalue⟩ := ih (d := { d with machine := n }) hb (no_output hn)
          (running_of_step_running hs) h
        refine ⟨value, ?_, hvalue.2⟩
        exact (loop_succ_of_again (Seeks.stepped ho hm hs nofun).eq).trans hvalue.1
    | done last =>
      rw [hr] at hround
      rw [loop_succ_of_done hr] at h
      cases h
      cases hround with
      | ends ht =>
        obtain ⟨value, hvalue, hmachine, hlines⟩ := runUntilOutput_of_ends fuel hm ho ht
        refine ⟨value, ?_, hlines⟩
        rw [hvalue]
        exact congrArg (fun n => some (value, n)) hmachine.symm
      | @outputs n ht hn =>
        have hs := step_of_tick ht
        obtain ⟨value, hvalue⟩ := exists_output ho hs hn
        obtain ⟨hmachine, hlines, -⟩ := leaves_refresh (d := { d with machine := n })
        have hpop : n.outputs.pop? = some (value, ∅) := Queue.pop?_eq_some_iff.2 hvalue
        have hfirst : d.machine.runUntilOutput (fuel + 2) = n.runUntilOutput (fuel + 1) :=
          loop_succ_of_again (Seeks.stepped ho hm hs nofun).eq
        refine ⟨.ok (some value), ?_, ?_⟩
        · rw [hfirst]
          refine (loop_succ_of_done (Seeks.found hpop).eq).trans ?_
          exact congrArg (fun n => some (_, n)) hmachine.symm
        · rw [concludeRun, conclude, hlines, hvalue]
          rfl
      | @breaks n _ hpc =>
        rw [hb] at hpc
        cases hpc

/-- As long as such a run goes on, so does the machine itself. -/
theorem runUntilOutput_eq_none (hb : d.breakpoints = []) (ho : d.machine.outputs.toList = [])
    (hm : d.machine.IsRunning) (h : loop (outputRound 0) fuel d = none) :
    d.machine.runUntilOutput fuel = none := by
  induction fuel generalizing d with
  | zero => rfl
  | succ fuel ih =>
    have hround := outputRound_cases 0 d
    cases hr : outputRound 0 d with
    | again e =>
      rw [hr] at hround
      rw [loop_succ_of_again hr] at h
      cases hround with
      | @goesOn n ht hn =>
        have hs := step_of_tick ht
        have hnone := ih (d := { d with machine := n }) hb (no_output hn)
          (running_of_step_running hs) h
        exact (loop_succ_of_again (Seeks.stepped ho hm hs nofun).eq).trans hnone
    | done last => cases (loop_succ_of_done hr).symm.trans h

/-! ## Pausing at the first reason -/

/-- The run to the end, or the run to the next output. -/
def runAction (toOutput : Bool) : Action := if toOutput then .runToOutput else .runToEnd

/-- The runs of a debugger pause at the first reason, and not before, unless a refresh fails
on the way. It does so only for want of a listing, if the host does not limit digits. -/
theorem runs_pause_at_first_reason (d : Debugger) :
    (∀ toOutput fuel r, d.perform fuel (runAction toOutput) = some r →
      (¬ RefreshFails r →
        PausesFirst d.breakpoints toOutput d.machine (actionHistory fuel d (runAction toOutput))
          (leaves r).machine) ∧
      (RefreshFails r → (∃ e, error? r = some (.unlisted e)) ∨ d.digitLimit ≠ none)) ∧
    (∀ toOutput k, (¬ d.machine.IsRunning ∨
        Pauses d.breakpoints toOutput (after^[k] d.machine)) →
      ∃ r, d.perform (k + 1) (runAction toOutput) = some r) ∧
    (∀ fuel, ((actionHistory fuel d .runToOutput).filter (·.OutputsNext)).length ≤ 1) ∧
    (d.breakpoints = [] → d.machine.outputs.toList = [] → d.machine.IsRunning →
      (∀ fuel, d.perform fuel .runToOutput = none → d.machine.runUntilOutput fuel = none) ∧
      ∀ fuel r, d.perform fuel .runToOutput = some r → ∃ value,
        d.machine.runUntilOutput (fuel + 1) = some (value, (leaves r).machine) ∧
        (leaves r).outputLines.toList =
          d.outputLines.toList ++ resultLines d.digitLimit value) := by
  have hend := watched_endRound d.breakpoints
  have hout := watched_outputRound d.breakpoints d.machine.outputs.size
  refine ⟨?_, ?_, ?_, ?_⟩
  · intro toOutput fuel r h
    refine ⟨fun hr => ?_, fun hr => hr.imp_right fun ⟨e, he⟩ => (performs h).limit_ne_none he⟩
    cases toOutput with
    | false =>
      obtain ⟨result, hl, rfl⟩ := Option.map_eq_some_iff.1 h
      exact hend.pausesFirst paced_endRound rfl hl hr
    | true =>
      obtain ⟨result, hl, rfl⟩ := Option.map_eq_some_iff.1 h
      exact hout.pausesFirst (paced_outputRound _) ⟨rfl, rfl⟩ hl hr
  · intro toOutput k hreason
    cases toOutput with
    | false =>
      obtain ⟨result, hl⟩ := hend.loop_of_reason (s := (d, 0)) paced_endRound rfl hreason
      exact ⟨_, Option.map_eq_some_iff.2 ⟨result, hl, rfl⟩⟩
    | true =>
      obtain ⟨result, hl⟩ := hout.loop_of_reason (paced_outputRound _) ⟨rfl, rfl⟩ hreason
      exact ⟨_, Option.map_eq_some_iff.2 ⟨result, hl, rfl⟩⟩
  · exact fun fuel => hout.length_filter_le_one (paced_outputRound _) ⟨rfl, rfl⟩
  · intro hb ho hm
    have hseen : d.machine.outputs.size = 0 := by rw [← Queue.length_toList, ho]; rfl
    constructor
    · intro fuel h
      have hl := Option.map_eq_none_iff.1 h
      rw [hseen] at hl
      exact runUntilOutput_eq_none hb ho hm hl
    · intro fuel r h
      obtain ⟨result, hl, rfl⟩ := Option.map_eq_some_iff.1 h
      rw [hseen] at hl
      exact runUntilOutput_of_loop hb ho hm hl

/-- A program that outputs and jumps back to its start, where there is a breakpoint in the
first session: a run to the end pauses when it comes back. In the second session a run to
the next output shows the value. -/
theorem runs_pause_at_first_reason_jump : ∃ m r r',
    load [104, 7, 1105, 1, 0] [] false = m ∧
    perform 9 .runToEnd { attach m with breakpoints := [0] } = some r ∧
    PausesFirst [0] false m
      (actionHistory 9 { attach m with breakpoints := [0] } .runToEnd) (leaves r).machine ∧
    (∃ r, perform 2 .runToEnd { attach m with breakpoints := [0] } = some r) ∧
    perform 9 .runToOutput (attach m) = some r' ∧
    ∃ value, m.runUntilOutput 10 = some (value, (leaves r').machine) ∧
      (leaves r').outputLines.toList = resultLines none value := by
  obtain ⟨m, hm⟩ : ∃ m, load [104, 7, 1105, 1, 0] [] false = m := ⟨_, rfl⟩
  have hend : (perform 9 .runToEnd { attach m with breakpoints := [0] }).map error? =
      some none := by
    rw [← hm]
    decide +kernel
  have hout : (perform 9 .runToOutput (attach m)).isSome = true := by
    rw [← hm]
    decide +kernel
  have hmachine : m.IsRunning ∧ m.outputs.toList = [] ∧ m.after.after.pc = 0 := by
    rw [← hm]
    decide +kernel
  obtain ⟨hrun, ho, hpc⟩ := hmachine
  obtain ⟨r, hr, herror⟩ := Option.map_eq_some_iff.1 hend
  obtain ⟨r', hr'⟩ := Option.isSome_iff_exists.1 hout
  obtain ⟨hpause, hmost, -, -⟩ :=
    runs_pause_at_first_reason { attach m with breakpoints := [0] }
  obtain ⟨-, -, -, has⟩ := runs_pause_at_first_reason (attach m)
  have hshown : ¬ RefreshFails r := by
    rw [RefreshFails, herror]
    exact not_or.2 ⟨nofun, nofun⟩
  refine ⟨m, r, r', hm, hr, (hpause false 9 r hr).1 hshown,
    hmost false 1 (.inr (.inr (.inr (.inl ?_)))), hr', (has rfl ho hrun).2 9 r' hr'⟩
  show m.after.after.pc ∈ [0]
  rw [hpc]
  exact List.mem_singleton_self 0

end Debugger

end Wordcode
