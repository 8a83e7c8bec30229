import Wordcode.Proofs.Debugger.Output

/-!
# Debuggers as drivers

A debugger cuts a run into actions: it counts the steps, pauses at outputs and at
breakpoints, and takes the outputs in between. Nothing of this changes what the
machine does. A session and a run go through the same machines, apart from outputs
that are not collected yet (`Course.follows`), as neither tells a step what to do
but the machine itself. So actions that come to the end of a run leave what the
run leaves, and report a fault exactly if the run has one (`actions_as_run`).
-/

namespace Wordcode

/-- The text of a line that reports an error. -/
def OutputLine.error? : OutputLine → Option String
  | .value _ => none
  | .error message => some message

/-- The text of the fault with which a step or a run ends, if there is one. -/
def Outcome.reported : Outcome → List String
  | .interrupted (.failed (.fault f)) => [f.message]
  | _ => []

namespace Debugger

open Machine

/-- An action, and the breakpoints that are set when it begins. -/
structure Turn where
  breakpoints : List Int
  action : Action

/-- The errors in the output panel. -/
def errors (d : Debugger) : List String := d.outputLines.toList.filterMap OutputLine.error?

/-- The history of a turn and the session that it leaves, unless the turn ends early. -/
def turn (fuel : Nat) (t : Turn) (d : Debugger) : Option (List Machine × Debugger) :=
  match perform fuel t.action { d with breakpoints := t.breakpoints } with
  | some (.ok () e) => some (actionHistory fuel { d with breakpoints := t.breakpoints } t.action, e)
  | _ => none

/-- The same of turns one after another. -/
def turnAll (fuel : Nat) : List Turn → Debugger → Option (List Machine × Debugger)
  | [], d => some ([], d)
  | t :: ts, d =>
    (turn fuel t d).bind fun p => (turnAll fuel ts p.2).map fun q => (p.1 ++ q.1, q.2)

variable {fuel : Nat} {d e f n : Debugger} {m : Machine} {g history : List Machine} {t : Turn}
  {ts : List Turn} {pause : Pause} {outcome : Outcome} {r : SessionResult Unit}

/-! ## Courses -/

theorem Course.trans (h : Course d g e) (h' : Course e history f) :
    Course d (g ++ history) f := by
  induction h' with
  | refl =>
    rw [List.append_nil]
    exact h
  | step _ hs ih =>
    rw [← List.append_assoc]
    exact ih.step hs
  | refresh _ hr ih => exact ih.refresh hr
  | mark _ breakpoints screen ih => exact ih.mark breakpoints screen

theorem Course.errors_eq (h : Course d history e) : e.errors = d.errors := by
  obtain ⟨shown, -, hl⟩ := h.shows
  have hvalues : (shown.map OutputLine.value).filterMap OutputLine.error? = [] := by
    rw [List.filterMap_map]
    exact List.filterMap_eq_nil_iff.2 fun _ _ => rfl
  rw [errors, hl, List.filterMap_append, hvalues, List.append_nil]
  rfl

/-- A session goes through the same machines as a run. -/
theorem Course.follows (h : Course d history e) : ∃ m,
    stateAfter runRound history.length d.machine = some m ∧ m.drained = e.machine.drained ∧
    (visited runRound history.length d.machine).map drained = history.map drained := by
  induction h with
  | refl => exact ⟨_, rfl, rfl, rfl⟩
  | @step e n history _ hs ih =>
    obtain ⟨m, hm, he, hv⟩ := ih
    -- The run still has the outputs queued that the session has collected.
    obtain ⟨hfirst, hafter⟩ := tryStep_of_drained_eq he
    rw [tryStep_of_ok hs nofun] at hfirst
    obtain ⟨k, hk⟩ := (m.running_or_ends).resolve_right (absurd hfirst)
    rw [after_of_ok hk, after_of_ok hs] at hafter
    refine ⟨k, ?_, hafter, ?_⟩
    · rw [List.length_append, stateAfter_add_of_stateAfter hm]
      exact stateAfter_succ_of_again (runRound_of_running hk)
    · rw [List.length_append, List.length_singleton, visited_succ_of_stateAfter hm,
        List.map_append, List.map_append, hv, List.map_singleton, List.map_singleton, he]
  | refresh _ hr ih =>
    rw [(of_refresh hr).1]
    exact ih
  | mark _ _ _ ih => exact ih

/-- A session goes to another by a course, a last step that does not leave the machine
running, and a refresh that also reports the fault of that step. -/
inductive Ends (d : Debugger) : List Machine → Debugger → Prop
  | intro {e n : Debugger} {history : List Machine} (h : Course d history e)
    (hends : e.machine.tryStep.1 ≠ .progressed .running)
    (hmachine : n.machine = e.machine.after.drained)
    (herrors : n.errors = d.errors ++ e.machine.tryStep.1.reported) :
    Ends d (history ++ [e.machine]) n

theorem Course.ends (h : Course d g e) (h' : Ends e history n) : Ends d (g ++ history) n := by
  obtain ⟨h', hends, hmachine, herrors⟩ := h'
  rw [← List.append_assoc]
  exact .intro (h.trans h') hends hmachine (by rw [herrors, h.errors_eq])

theorem Ends.not_running (h : Ends d history n) :
    ∃ m ∈ history, m.tryStep.1 ≠ .progressed .running := by
  obtain ⟨-, hends, -, -⟩ := h
  exact ⟨_, by simp, hends⟩

/-- A run ends with the same step. -/
theorem Ends.tryRun (h : Ends d history n) : ∃ outcome t,
    d.machine.tryRun history.length = some (outcome, t) ∧ n.machine = t.drained ∧
    n.errors = d.errors ++ outcome.reported ∧
    (visited runRound history.length d.machine).map drained = history.map drained := by
  obtain ⟨h, hends, hmachine, herrors⟩ := h
  obtain ⟨m, hm, he, hv⟩ := h.follows
  obtain ⟨hfirst, hafter⟩ := tryStep_of_drained_eq he
  rw [← hfirst] at hends herrors
  rw [List.length_append, List.length_singleton]
  refine ⟨m.tryStep.1, m.tryStep.2, tryRun_of_lastStep hm rfl hends, ?_, herrors, ?_⟩
  · rw [hmachine, tryStep_snd, hafter]
  · rw [visited_succ_of_stateAfter hm, List.map_append, List.map_append, hv, List.map_singleton,
      List.map_singleton, he]

/-! ## Turns -/

/-- What is shown at the end of an action: the machine without its outputs, and the
fault of the last step if there is one. -/
theorem of_conclude (h : conclude pause d = .ok () e)
    (hpause : ∀ failure, pause = .failed failure ↔ outcome = .interrupted (.failed failure)) :
    e.machine = d.machine.drained ∧ e.errors = d.errors ++ outcome.reported := by
  have hrefresh : ∀ {d : Debugger}, refresh d = .ok () e →
      e.machine = d.machine.drained ∧ e.errors = d.errors := fun h =>
    ⟨(of_refresh h).1, ((Course.refl _).refresh h).errors_eq⟩
  cases pause with
  | rest =>
    have hnone : outcome.reported = [] := by
      unfold Outcome.reported
      split
      · next f => cases (hpause (.fault f)).2 rfl
      · rfl
    rw [hnone, List.append_nil]
    exact hrefresh h
  | failed failure =>
    cases failure with
    | fault f =>
      rw [conclude, report_eq] at h
      obtain ⟨hm, he⟩ := hrefresh h
      refine ⟨hm, ?_⟩
      rw [he, (hpause (.fault f)).1 rfl, errors, Array.toList_push, List.filterMap_append]
      rfl
    | memoryLimit => cases h

theorem Performs.course_or_ends (h : Performs d history r) (hr : r = .ok () n) :
    Course d history n ∨ Ends d history n := by
  cases h with
  | rests h => exact .inl (h.refresh hr)
  | @ends e _ pause _ h hm ht =>
    obtain ⟨rfl, hends, hpause⟩ := ends_of_tick hm ht
    obtain ⟨hmachine, herrors⟩ := of_conclude hr hpause
    have hsame : errors { e with machine := e.machine.after } = d.errors := h.errors_eq
    exact .inr (.intro h hends hmachine (by rw [herrors, hsame]))
  | idles =>
    cases hr
    exact .inl (.refl _)
  | marks =>
    obtain ⟨breakpoints, screen, hl⟩ := leaves_toggleBreakpoint (d := d)
    rw [hr] at hl
    obtain rfl : n = _ := hl
    exact .inl ((Course.refl d).mark breakpoints screen)

/-- Setting breakpoints is no step. -/
theorem course_or_ends_of_turn (h : turn fuel t d = some (history, n)) :
    Course d history n ∨ Ends d history n := by
  unfold turn at h
  split at h
  · next hp =>
    cases h
    have hmark : Course d [] { d with breakpoints := t.breakpoints } :=
      (Course.refl d).mark t.breakpoints d.screen
    exact (performs hp).course_or_ends rfl |>.imp hmark.trans hmark.ends
  · cases h

/-- As long as each step leaves the machine running, turns make one course. -/
theorem course_of_turnAll (h : turnAll fuel ts d = some (history, e))
    (hrunning : ∀ m ∈ history, m.tryStep.1 = .progressed .running) : Course d history e := by
  induction ts generalizing d history with
  | nil =>
    cases h
    exact .refl _
  | cons t ts ih =>
    obtain ⟨⟨g, f⟩, ht, hrest⟩ := Option.bind_eq_some_iff.1 h
    obtain ⟨⟨g', e'⟩, hts, he⟩ := Option.map_eq_some_iff.1 hrest
    cases he
    obtain ⟨hg, hg'⟩ := List.forall_mem_append.1 hrunning
    rcases course_or_ends_of_turn ht with hc | hends
    · exact hc.trans (ih hts hg')
    · obtain ⟨m, hm, hnot⟩ := hends.not_running
      exact absurd (hg m hm) hnot

/-- Turns that leave the machine running, and one in which the machine halts, waits for
input or meets a fault, whatever breakpoints are set, come to what one run comes to:
the session has the machine that the run leaves, without its outputs, and reports the
fault of the run if it has one. The steps find the machine as those of the run do,
apart from outputs, so none is left out and none is made twice. -/
theorem actions_as_run {fuel : Nat} {ts : List Turn} {last : Turn} {d e n : Debugger}
    {history ending : List Machine} (h : turnAll fuel ts d = some (history, e))
    (hrunning : ∀ m ∈ history, m.tryStep.1 = .progressed .running)
    (hlast : turn fuel last e = some (ending, n))
    (hends : ∃ m ∈ ending, m.tryStep.1 ≠ .progressed .running) :
    ∃ outcome t, d.machine.tryRun (history ++ ending).length = some (outcome, t) ∧
      n.machine = t.drained ∧ n.errors = d.errors ++ outcome.reported ∧
      (visited runRound (history ++ ending).length d.machine).map drained =
        (history ++ ending).map drained := by
  rcases course_or_ends_of_turn hlast with hc | hc
  · obtain ⟨m, hm, hnot⟩ := hends
    exact absurd (hc.running m hm) hnot
  · exact ((course_of_turnAll h hrunning).ends hc).tryRun

/-- A step, a run to a breakpoint and the breakpoint taken away, and then ten steps, of
which the first meets a fault. -/
theorem actions_as_run_faulting : ∃ history e ending n outcome t,
    turnAll 9 [⟨[], .step 1⟩, ⟨[4], .runToEnd⟩, ⟨[4], .toggleBreakpoint⟩]
      (attach (load [104, 7, 104, 8, 42] [] false)) = some (history, e) ∧
    turn 9 ⟨[4], .step 10⟩ e = some (ending, n) ∧
    (load [104, 7, 104, 8, 42] [] false).tryRun 3 = some (outcome, t) ∧
    n.machine = t.drained ∧ n.errors = outcome.reported := by
  have hrun : ((turnAll 9 [⟨[], .step 1⟩, ⟨[4], .runToEnd⟩, ⟨[4], .toggleBreakpoint⟩]
      (attach (load [104, 7, 104, 8, 42] [] false))).bind fun p =>
        (turn 9 ⟨[4], .step 10⟩ p.2).map fun q =>
          (p.1.map (·.tryStep.1), q.1.map (·.tryStep.1))) =
      some ([.progressed .running, .progressed .running],
        [.interrupted (.failed (.fault (.badInstruction 42 4 .unknownOperation)))]) := by
    decide +kernel
  obtain ⟨⟨history, e⟩, h, hrest⟩ := Option.bind_eq_some_iff.1 hrun
  obtain ⟨⟨ending, n⟩, hlast, hq⟩ := Option.map_eq_some_iff.1 hrest
  obtain ⟨hhistory, hending⟩ := Prod.mk.inj hq
  have hrunning : ∀ m ∈ history, m.tryStep.1 = .progressed .running := fun m hm => by
    have hmem := List.mem_map_of_mem (f := fun m : Machine => m.tryStep.1) hm
    rw [hhistory] at hmem
    simpa using hmem
  have hends : ∃ m ∈ ending, m.tryStep.1 ≠ .progressed .running := by
    obtain ⟨m, hm, hf⟩ := List.mem_map.1 (hending ▸ List.mem_singleton_self _)
    exact ⟨m, hm, by rw [hf]; exact nofun⟩
  have hlength : (history ++ ending).length = 3 := by
    have hmap : ((history ++ ending).map fun m : Machine => m.tryStep.1).length = 3 := by
      rw [List.map_append, hhistory, hending]
      rfl
    rwa [List.length_map] at hmap
  obtain ⟨outcome, t, ht, hmachine, herrors, -⟩ := actions_as_run h hrunning hlast hends
  rw [hlength] at ht
  exact ⟨history, e, ending, n, outcome, t, h, hlast, ht, hmachine, herrors⟩

end Debugger

end Wordcode
