import Wordcode.Debugger.Session
import Wordcode.Proofs.Debugger.Listing
import Wordcode.Proofs.Machine.Drivers

/-!
# What an action does

However an action of a debugger counts, pauses and redraws, it does one thing:
it makes steps that leave the machine running, with refreshes in between
(`Course`), and then either refreshes once more or shows why a last step did not
leave the machine running (`Performs`). All that is known of actions is derived
from this (`performs`).

The machine as each step of an action found it is the history of the action
(`actionHistory`).
-/

namespace Wordcode

namespace Debugger

open Listing Machine

/-- The session that a computation leaves, also if it has ended early. -/
def leaves {α : Type} : SessionResult α → Debugger
  | .ok _ d => d
  | .error _ d => d

/-- Why a computation has ended early, if it has. -/
def error? {α : Type} : SessionResult α → Option DebuggerError
  | .ok _ _ => none
  | .error error _ => some error

/-- The session once the outputs are in the output panel, up to one that cannot be written. -/
def collected (d : Debugger) : Debugger :=
  { d with
    machine := d.machine.drained
    outputLines := d.outputLines.appendList
      ((d.digitLimit.front d.machine.outputs.toList).map .value) }

/-- The host can write the numbers that are written for a listing. -/
def WritesListing (d : Debugger) : Prop :=
  WritesLines d.digitLimit (madeLines d.machine.memory.cells d.machine.pc)

/-- The host can write the numbers that are written for a refresh. -/
structure Writable (d : Debugger) : Prop where
  outputs : d.digitLimit.Writes d.machine.outputs.toList
  listing : d.WritesListing
  state : d.digitLimit.Writes (stateNumbers d.machine)
  memory : d.digitLimit.Writes (memoryNumbers d.machine)
  input : d.digitLimit.Writes (inputNumbers d.machine)

/-- A session goes from one state to another by steps that leave the machine
running, which find the machine as the history tells, by refreshes, and by changes
of the breakpoints and of what is shown of them. -/
inductive Course : Debugger → List Machine → Debugger → Prop
  | refl (d : Debugger) : Course d [] d
  | step {d e : Debugger} {n : Machine} {history : List Machine} (h : Course d history e)
    (hs : Machine.step e.machine = .ok .running n) :
    Course d (history ++ [e.machine]) { e with machine := n }
  | refresh {d e f : Debugger} {history : List Machine} (h : Course d history e)
    (hr : refresh e = .ok () f) : Course d history f
  | mark {e : Debugger} {history : List Machine} (h : Course d history e)
    (breakpoints : List Int) (screen : Screen) : Course d history { e with breakpoints, screen }

/-- What an action can come to, with its history. -/
inductive Performs (d : Debugger) : List Machine → SessionResult Unit → Prop
  /-- There is no reason to go on, and what is shown is refreshed. -/
  | rests {e : Debugger} {history : List Machine} (h : Course d history e) :
    Performs d history (refresh e)
  /-- A step does not leave the machine running. -/
  | ends {e : Debugger} {history : List Machine} {pause : Pause} {n : Machine}
    (h : Course d history e) (hm : e.machine.IsRunning) (ht : tick e.machine = (some pause, n)) :
    Performs d (history ++ [e.machine]) (conclude pause { e with machine := n })
  /-- Nothing is done while a run is going on. -/
  | idles : Performs d [] (.ok () d)
  | marks : Performs d [] (toggleBreakpoint d)

/-- The machine as each of up to `count` steps finds it. -/
def tickHistory : Nat → Machine → List Machine
  | 0, _ => []
  | count + 1, m =>
    if m.IsRunning then
      m :: match tick m with
        | (none, n) => tickHistory count n
        | (some _, _) => []
    else []

/-- The machines in some states of a loop, as far as a step can be made on them. -/
def steppedOn {σ : Type} (view : σ → Debugger) (states : List σ) : List Machine :=
  (states.map fun s => (view s).machine).filter (·.IsRunning)

/-- The machine as each step of an action finds it. -/
def actionHistory (fuel : Nat) (d : Debugger) : Action → List Machine
  | .step count => if d.busy then [] else tickHistory count d.machine
  | .runToEnd => steppedOn Prod.fst (visited endRound fuel (d, 0))
  | .runToOutput => steppedOn id (visited (outputRound d.machine.outputs.size) fuel d)
  | .toggleBreakpoint => []

variable {fuel count seen : Nat} {d e f : Debugger} {m n : Machine} {history : List Machine}
  {pause : Pause} {action : Action} {r : SessionResult Unit}

theorem eq_error_of_error? {error : DebuggerError} (h : error? r = some error) :
    r = .error error (leaves r) := by
  cases r with
  | ok u e => cases h
  | error error e =>
    cases h
    rfl

/-! ## Refreshing -/

theorem writable_of_none (h : d.digitLimit = none) : d.Writable := by
  have hwrites (numbers : List Int) : d.digitLimit.Writes numbers := by
    rw [h]
    exact DigitLimit.writes_none numbers
  exact ⟨hwrites _, fun line _ => hwrites _, hwrites _, hwrites _, hwrites _⟩

/-- What drawing the listing can come to. -/
theorem refreshListing_cases (d : Debugger) :
    (Listed d.machine ∧ d.WritesListing ∧
      ∃ text, listingText d.digitLimit d.machine d.breakpoints = .ok text ∧
        refreshListing d = .ok () { d with screen := { d.screen with listing := some text } }) ∨
    (¬ Listed d.machine ∧ refreshListing d = .error (.unlisted (whyNot d.machine.pc)) d) ∨
    (¬ d.WritesListing ∧ refreshListing d = .error (.tooManyDigits d.digitLimit.excess) d) := by
  rcases listingText_cases d.digitLimit d.machine d.breakpoints with
    ⟨hl, hw, text, ht⟩ | ⟨hl, ht⟩ | ⟨hw, ht⟩
  · exact .inl ⟨hl, hw, text, ht, by simp only [refreshListing, ht]⟩
  · exact .inr (.inl ⟨hl, by simp only [refreshListing, ht, DebuggerError.ofListing]⟩)
  · exact .inr (.inr ⟨hw, by simp only [refreshListing, ht, DebuggerError.ofListing]⟩)

variable {numbers : Machine → List Int} {draw : Machine → Screen → Screen}

theorem redraw_of_writes (h : d.digitLimit.Writes (numbers d.machine)) :
    redraw numbers draw d = .ok () { d with screen := draw d.machine d.screen } := if_pos h

theorem redraw_of_not_writes (h : ¬ d.digitLimit.Writes (numbers d.machine)) :
    redraw numbers draw d = .error (.tooManyDigits d.digitLimit.excess) d := if_neg h

/-- The session once the panels are drawn, with this text of the listing, and the log is up to
date. -/
def refreshed (text : String) (d : Debugger) : Debugger :=
  { d with
    log := d.log ++ d.outputLines.extract d.log.size d.outputLines.size
    screen := ⟨some text, some (stateText d.machine), some (memoryText d.machine),
      some (inputText d.machine)⟩ }

/-- The results that a refresh of a session can have. In each of them the outputs are taken. -/
inductive Refreshes (d : Debugger) : SessionResult Unit → Prop
  /-- Everything is drawn. -/
  | drawn {text : String} (hl : Listed d.machine) (hw : d.Writable)
    (ht : listingText d.digitLimit d.machine.drained d.breakpoints = .ok text) :
    Refreshes d (.ok () (refreshed text (collected d)))
  /-- There is no listing. -/
  | unlisted (hl : ¬ Listed d.machine) :
    Refreshes d (.error (.unlisted (whyNot d.machine.pc)) (collected d))
  /-- A number cannot be written. -/
  | unwritten (hw : ¬ d.Writable) (screen : Screen) :
    Refreshes d (.error (.tooManyDigits d.digitLimit.excess) { collected d with screen })

/-- The panels below the listing are drawn one after another, up to one with a number that
cannot be written. -/
theorem refreshBelow_cases (d : Debugger) :
    (d.digitLimit.Writes (stateNumbers d.machine) ∧
      d.digitLimit.Writes (memoryNumbers d.machine) ∧
      d.digitLimit.Writes (inputNumbers d.machine) ∧
      (do refreshState; refreshMemory; refreshInput; flushLog : SessionM Unit) d =
        .ok () { d with
          log := d.log ++ d.outputLines.extract d.log.size d.outputLines.size
          screen := ⟨d.screen.listing, some (stateText d.machine), some (memoryText d.machine),
            some (inputText d.machine)⟩ }) ∨
    (¬ (d.digitLimit.Writes (stateNumbers d.machine) ∧
      d.digitLimit.Writes (memoryNumbers d.machine) ∧
      d.digitLimit.Writes (inputNumbers d.machine)) ∧ ∃ screen,
      (do refreshState; refreshMemory; refreshInput; flushLog : SessionM Unit) d =
        .error (.tooManyDigits d.digitLimit.excess) { d with screen }) := by
  by_cases hs : d.digitLimit.Writes (stateNumbers d.machine)
  · by_cases hm : d.digitLimit.Writes (memoryNumbers d.machine)
    · by_cases hi : d.digitLimit.Writes (inputNumbers d.machine)
      · exact .inl ⟨hs, hm, hi, Eq.trans (bind_of_ok (redraw_of_writes hs))
          (Eq.trans (bind_of_ok (redraw_of_writes hm))
            (Eq.trans (bind_of_ok (redraw_of_writes hi)) rfl))⟩
      · exact .inr ⟨fun h => hi h.2.2, _, Eq.trans (bind_of_ok (redraw_of_writes hs))
          (Eq.trans (bind_of_ok (redraw_of_writes hm))
            (bind_of_error (redraw_of_not_writes hi)))⟩
    · exact .inr ⟨fun h => hm h.2.1, _, Eq.trans (bind_of_ok (redraw_of_writes hs))
        (bind_of_error (redraw_of_not_writes hm))⟩
  · exact .inr ⟨fun h => hs h.1, _, bind_of_error (redraw_of_not_writes hs)⟩

/-- A refresh has no other result than those listed. -/
theorem refreshes (d : Debugger) : Refreshes d (refresh d) := by
  by_cases ho : d.digitLimit.Writes d.machine.outputs.toList
  · have hcollect : collectOutputs d = .ok () (collected d) := if_pos ho
    rw [refresh, bind_of_ok hcollect]
    rcases refreshListing_cases (collected d) with
      ⟨hl, hlines, text, ht, hr⟩ | ⟨hl, hr⟩ | ⟨hlines, hr⟩
    · rw [bind_of_ok hr]
      rcases refreshBelow_cases { collected d with
          screen := { (collected d).screen with listing := some text } } with
        ⟨hs, hm, hi, hbelow⟩ | ⟨hnot, screen, hbelow⟩
      · rw [hbelow]
        exact .drawn hl ⟨ho, hlines, hs, hm, hi⟩ ht
      · rw [hbelow]
        exact Refreshes.unwritten (d := d) (fun hw => hnot ⟨hw.state, hw.memory, hw.input⟩) screen
    · rw [bind_of_error hr]
      exact .unlisted hl
    · rw [bind_of_error hr]
      exact Refreshes.unwritten (d := d) (fun hw => hlines hw.listing) d.screen
  · have hcollect : collectOutputs d = .error (.tooManyDigits d.digitLimit.excess) (collected d) :=
      if_neg ho
    rw [refresh, bind_of_error hcollect]
    exact .unwritten (fun hw => ho hw.outputs) d.screen

/-- A refresh hands the outputs over to the output panel, also if it fails. Those behind one
that cannot be written are lost. -/
theorem leaves_refresh : (leaves (refresh d)).machine = d.machine.drained ∧
    (leaves (refresh d)).outputLines.toList = d.outputLines.toList ++
      (d.digitLimit.front d.machine.outputs.toList).map .value ∧
    (leaves (refresh d)).digitLimit = d.digitLimit := by
  have hlines : (collected d).outputLines.toList = d.outputLines.toList ++
      (d.digitLimit.front d.machine.outputs.toList).map .value := Array.toList_appendList ..
  have hr := refreshes d
  generalize refresh d = r at hr
  cases hr with
  | drawn => exact ⟨rfl, hlines, rfl⟩
  | unlisted => exact ⟨rfl, hlines, rfl⟩
  | unwritten => exact ⟨rfl, hlines, rfl⟩

/-- A refresh that comes to its end leaves nothing out. -/
theorem of_refresh (h : refresh d = .ok () e) : e.machine = d.machine.drained ∧
    e.outputLines.toList = d.outputLines.toList ++ d.machine.outputs.toList.map .value := by
  have hr := refreshes d
  obtain ⟨hmachine, hlines, -⟩ := leaves_refresh (d := d)
  rw [h] at hr hmachine hlines
  cases hr with
  | drawn _ hw =>
    rw [DigitLimit.front_of_writes hw.outputs] at hlines
    exact ⟨hmachine, hlines⟩

/-- An error is shown behind what the panel holds, and before what is collected then. -/
theorem report_eq {message : String} : report message d =
    refresh { d with outputLines := d.outputLines.push (.error message) } := rfl

theorem toggleBreakpoint_eq : toggleBreakpoint d = refreshListing
    (if d.machine.pc ∈ d.breakpoints then
      { d with breakpoints := d.breakpoints.erase d.machine.pc }
    else { d with breakpoints := (d.machine.pc :: d.breakpoints).mergeSort }) := rfl

/-- Marking a place draws the listing again, with other breakpoints. -/
theorem exists_toggleBreakpoint_eq :
    ∃ breakpoints, toggleBreakpoint d = refreshListing { d with breakpoints } := by
  rw [toggleBreakpoint_eq]
  split
  · exact ⟨_, rfl⟩
  · exact ⟨_, rfl⟩

/-- Nothing else is touched, and the listing is redrawn if it can be. -/
theorem toggleBreakpoint_cases : ∃ breakpoints,
    (Listed d.machine ∧ d.WritesListing ∧
      ∃ screen, toggleBreakpoint d = .ok () { d with breakpoints, screen }) ∨
    (¬ Listed d.machine ∧ toggleBreakpoint d =
      .error (.unlisted (whyNot d.machine.pc)) { d with breakpoints }) ∨
    (¬ d.WritesListing ∧ toggleBreakpoint d =
      .error (.tooManyDigits d.digitLimit.excess) { d with breakpoints }) := by
  obtain ⟨breakpoints, ht⟩ := exists_toggleBreakpoint_eq (d := d)
  rw [ht]
  refine ⟨breakpoints, ?_⟩
  rcases refreshListing_cases { d with breakpoints } with ⟨hl, hw, text, -, hr⟩ | h | h
  · exact .inl ⟨hl, hw, _, hr⟩
  · exact .inr (.inl h)
  · exact .inr (.inr h)

theorem leaves_toggleBreakpoint : ∃ breakpoints screen,
    leaves (toggleBreakpoint d) = { d with breakpoints, screen } := by
  obtain ⟨breakpoints, ⟨-, -, screen, ht⟩ | ⟨-, ht⟩ | ⟨-, ht⟩⟩ := toggleBreakpoint_cases (d := d)
  · exact ⟨breakpoints, screen, congrArg leaves ht⟩
  · exact ⟨breakpoints, d.screen, congrArg leaves ht⟩
  · exact ⟨breakpoints, d.screen, congrArg leaves ht⟩

/-! ## Steps -/

theorem tick_of_not_running (hm : ¬ m.IsRunning) : tick m = (some .rest, m) := by
  rw [tick, if_neg hm]

theorem tick_of_running (hs : Machine.step m = .ok .running n) : tick m = (none, n) := by
  rw [tick, if_pos (running_of_step hs), tryStep_of_ok hs nofun]

/-- A step that does not leave the machine running is the last one of an action. -/
theorem tick_of_ends (hm : m.IsRunning) (he : m.tryStep.1 ≠ .progressed .running) :
    ∃ pause, tick m = (some pause, m.after) ∧
      ∀ failure, pause = .failed failure ↔ m.tryStep.1 = .interrupted (.failed failure) := by
  rw [tick, if_pos hm]
  cases hs : Machine.step m with
  | error failure n =>
    rw [tryStep_of_error hs, after_of_error hs]
    exact ⟨.failed failure, rfl, fun _ => by simp⟩
  | ok s n =>
    rw [after_of_ok hs]
    cases s with
    | running =>
      rw [tryStep_of_ok hs nofun] at he
      exact absurd rfl he
    | waiting =>
      rw [tryStep_of_waiting hs]
      exact ⟨.rest, rfl, fun _ => by simp⟩
    | stopped =>
      rw [tryStep_of_ok hs nofun]
      exact ⟨.rest, rfl, fun _ => by simp⟩

theorem step_of_tick (ht : tick m = (none, n)) : Machine.step m = .ok .running n := by
  by_cases hm : m.IsRunning
  · rcases m.running_or_ends with ⟨k, hs⟩ | he
    · rw [tick_of_running hs] at ht
      cases ht
      exact hs
    · obtain ⟨pause, hp, -⟩ := tick_of_ends hm he
      rw [hp] at ht
      cases ht
  · rw [tick_of_not_running hm] at ht
    cases ht

theorem tickHistory_of_not_running (hm : ¬ m.IsRunning) : tickHistory count m = [] := by
  cases count with
  | zero => rfl
  | succ count => rw [tickHistory, if_neg hm]

/-- After a course, an action that counts its steps goes on with the rest of them. -/
theorem performs_ticks (h : Course d history e) :
    Performs d (history ++ tickHistory count e.machine)
      (conclude (ticks count e.machine).1 { e with machine := (ticks count e.machine).2 }) := by
  induction count generalizing history e with
  | zero =>
    rw [tickHistory, List.append_nil]
    exact .rests h
  | succ count ih =>
    by_cases hm : e.machine.IsRunning
    · cases ht : tick e.machine with
      | mk pause? n =>
        simp only [ticks, tickHistory, if_pos hm, ht]
        cases pause? with
        | none =>
          rw [List.append_cons]
          exact ih (h.step (step_of_tick ht))
        | some pause => exact .ends h hm ht
    · rw [tickHistory_of_not_running hm, List.append_nil]
      simp only [ticks, tick_of_not_running hm]
      exact .rests h

/-! ## Loops -/

variable {σ : Type} {next : σ → Progress σ (SessionResult Pause)} {view : σ → Debugger}
  {states : List σ} {s : σ}

theorem steppedOn_of_running (hm : (view s).machine.IsRunning) :
    steppedOn view (states ++ [s]) = steppedOn view states ++ [(view s).machine] := by
  rw [steppedOn, List.map_append, List.filter_append]
  congr 1
  exact List.filter_cons_of_pos (decide_eq_true hm)

theorem steppedOn_of_not_running (hm : ¬ (view s).machine.IsRunning) :
    steppedOn view (states ++ [s]) = steppedOn view states := by
  rw [steppedOn, List.map_append, List.filter_append]
  have hnone : ([s].map fun s => (view s).machine).filter (·.IsRunning) = [] :=
    List.filter_cons_of_neg (by rwa [decide_eq_true_eq])
  rw [hnone, List.append_nil]
  rfl

/-- Each round of a loop over sessions is one step, and perhaps a refresh. -/
structure Paced {σ : Type} (next : σ → Progress σ (SessionResult Pause)) (view : σ → Debugger) :
    Prop where
  again : ∀ {s t}, next s = .again t → ∃ n, tick (view s).machine = (none, n) ∧
    (view t = { view s with machine := n } ∨
      refresh { view s with machine := n } = .ok () (view t))
  done : ∀ {s r}, next s = .done r →
    (∃ pause n, tick (view s).machine = (some pause, n) ∧
      concludeRun r = conclude pause { view s with machine := n }) ∨
    ∃ n, tick (view s).machine = (none, n) ∧
      concludeRun r = refresh { view s with machine := n }

theorem Course.tick (h : Course d (steppedOn view states) (view s))
    (ht : tick (view s).machine = (none, n)) :
    Course d (steppedOn view (states ++ [s])) { view s with machine := n } := by
  have hs := step_of_tick ht
  rw [steppedOn_of_running (running_of_step hs)]
  exact h.step hs

/-- The rounds of such a loop make a course. -/
theorem Paced.course (hp : Paced next view) {k : Nat} {t : σ}
    (h : stateAfter next k s = some t) :
    Course (view s) (steppedOn view (visited next k s)) (view t) := by
  have hagain : ∀ states a b, Course (view s) (steppedOn view states) (view a) →
      next a = .again b → Course (view s) (steppedOn view (states ++ [a])) (view b) := by
    intro states a b hc hab
    obtain ⟨n, ht, hb | hb⟩ := hp.again hab
    · rw [hb]
      exact hc.tick ht
    · exact (hc.tick ht).refresh hb
  have hfirst : Course (view s) (steppedOn view []) (view s) := .refl _
  exact stateAfter_keep (P := fun states t => Course (view s) (steppedOn view states) (view t))
    hagain hfirst h

/-- A loop of that kind has done what an action does. -/
theorem Paced.performs (hp : Paced next view) {result : SessionResult Pause}
    (h : loop next fuel s = some result) :
    Performs (view s) (steppedOn view (visited next fuel s)) (concludeRun result) := by
  obtain ⟨k, t, -, hk, ht, hv⟩ := exists_stateAfter_of_loop h
  have hc := hp.course hk
  rw [hv]
  rcases hp.done ht with ⟨pause, n, htick, hr⟩ | ⟨n, htick, hr⟩
  · rw [hr]
    by_cases hm : (view t).machine.IsRunning
    · rw [steppedOn_of_running hm]
      exact .ends hc hm htick
    · rw [tick_of_not_running hm] at htick
      cases htick
      rw [steppedOn_of_not_running hm]
      exact .rests hc
  · rw [hr]
    exact .rests (hc.tick htick)

/-- What a round of a run to the end can do. -/
inductive EndRound (d : Debugger) (cycle : Nat) :
    Progress (Debugger × Nat) (SessionResult Pause) → Prop
  | ends {pause : Pause} {n : Machine} (ht : tick d.machine = (some pause, n)) :
    EndRound d cycle (.done (.ok pause { d with machine := n }))
  | breaks {n : Machine} (ht : tick d.machine = (none, n)) (hpc : n.pc ∈ d.breakpoints) :
    EndRound d cycle (.done (.ok .rest { d with machine := n }))
  | goesOn {n : Machine} (ht : tick d.machine = (none, n)) (hpc : n.pc ∉ d.breakpoints) :
    EndRound d cycle (.again ({ d with machine := n }, cycle + 1))
  | refreshed {n : Machine} {e : Debugger} (ht : tick d.machine = (none, n))
    (hpc : n.pc ∉ d.breakpoints) (hr : refresh { d with machine := n } = .ok () e) :
    EndRound d cycle (.again (e, cycle + 1))
  | unlisted {n : Machine} {e : Debugger} {error : DebuggerError}
    (ht : tick d.machine = (none, n)) (hpc : n.pc ∉ d.breakpoints)
    (hr : refresh { d with machine := n } = .error error e) :
    EndRound d cycle (.done (.error error e))

theorem endRound_cases (d : Debugger) (cycle : Nat) : EndRound d cycle (endRound (d, cycle)) := by
  cases ht : tick d.machine with
  | mk pause? n =>
    cases pause? with
    | some pause =>
      simp only [endRound, ht]
      exact .ends ht
    | none =>
      simp only [endRound, ht]
      split
      · next hpc => exact .breaks ht hpc
      · next hpc =>
        split
        · split
          · next hr => exact .refreshed ht hpc hr
          · next hr => exact .unlisted ht hpc hr
        · exact .goesOn ht hpc

theorem paced_endRound : Paced endRound Prod.fst where
  again {s t} h := by
    have hround := endRound_cases s.1 s.2
    rw [h] at hround
    cases hround with
    | goesOn ht => exact ⟨_, ht, .inl rfl⟩
    | refreshed ht _ hr => exact ⟨_, ht, .inr hr⟩
  done {s r} h := by
    have hround := endRound_cases s.1 s.2
    rw [h] at hround
    cases hround with
    | ends ht => exact .inl ⟨_, _, ht, rfl⟩
    | breaks ht => exact .inr ⟨_, ht, rfl⟩
    | unlisted ht _ hr => exact .inr ⟨_, ht, hr.symm⟩

/-- What a round of a run to the next output can do. -/
inductive OutputRound (seen : Nat) (d : Debugger) :
    Progress Debugger (SessionResult Pause) → Prop
  | ends {pause : Pause} {n : Machine} (ht : tick d.machine = (some pause, n)) :
    OutputRound seen d (.done (.ok pause { d with machine := n }))
  | outputs {n : Machine} (ht : tick d.machine = (none, n)) (hn : seen < n.outputs.size) :
    OutputRound seen d (.done (.ok .rest { d with machine := n }))
  | breaks {n : Machine} (ht : tick d.machine = (none, n)) (hpc : n.pc ∈ d.breakpoints) :
    OutputRound seen d (.done (.ok .rest { d with machine := n }))
  | goesOn {n : Machine} (ht : tick d.machine = (none, n)) (hn : n.outputs.size ≤ seen)
    (hpc : n.pc ∉ d.breakpoints) : OutputRound seen d (.again { d with machine := n })

theorem outputRound_cases (seen : Nat) (d : Debugger) :
    OutputRound seen d (outputRound seen d) := by
  cases ht : tick d.machine with
  | mk pause? n =>
    cases pause? with
    | some pause =>
      simp only [outputRound, ht]
      exact .ends ht
    | none =>
      simp only [outputRound, ht]
      split
      · next hn => exact .outputs ht hn
      · next hn =>
        split
        · next hpc => exact .breaks ht hpc
        · next hpc => exact .goesOn ht (Nat.le_of_not_lt hn) hpc

theorem paced_outputRound (seen : Nat) : Paced (outputRound seen) id where
  again {d e} h := by
    have hround := outputRound_cases seen d
    rw [h] at hround
    cases hround with
    | goesOn ht => exact ⟨_, ht, .inl rfl⟩
  done {d r} h := by
    have hround := outputRound_cases seen d
    rw [h] at hround
    cases hround with
    | ends ht => exact .inl ⟨_, _, ht, rfl⟩
    | outputs ht => exact .inr ⟨_, ht, rfl⟩
    | breaks ht => exact .inr ⟨_, ht, rfl⟩

theorem step_eq : Debugger.step count d = if d.busy = true then .ok () d
    else conclude (ticks count d.machine).1 { d with machine := (ticks count d.machine).2 } := by
  show (if d.busy = true then pure PUnit.unit else _ : SessionM Unit) d = _
  split
  · rfl
  · rfl

/-- What an action does. -/
theorem performs (h : perform fuel action d = some r) :
    Performs d (actionHistory fuel d action) r := by
  cases action with
  | step count =>
    cases h
    rw [step_eq, actionHistory]
    split
    · exact .idles
    · exact performs_ticks (.refl d)
  | runToEnd =>
    obtain ⟨result, hl, rfl⟩ := Option.map_eq_some_iff.1 h
    exact paced_endRound.performs hl
  | runToOutput =>
    obtain ⟨result, hl, rfl⟩ := Option.map_eq_some_iff.1 h
    exact (paced_outputRound _).performs hl
  | toggleBreakpoint =>
    cases h
    exact .marks

/-! ## What an action keeps -/

/-- A property of machines is kept by steps, and if outputs are handed over. -/
structure Kept (P : Machine → Prop) : Prop where
  after : ∀ {m}, P m → P m.after
  drained : ∀ {m}, P m → P m.drained

theorem Course.running (h : Course d history e) :
    ∀ m ∈ history, m.tryStep.1 = .progressed .running := by
  induction h with
  | refl => exact List.forall_mem_nil _
  | refresh _ _ ih => exact ih
  | mark _ _ _ ih => exact ih
  | step _ hs ih =>
    intro m hm
    rcases List.mem_append.1 hm with hm | hm
    · exact ih m hm
    · rw [List.mem_singleton.1 hm, tryStep_of_ok hs nofun]

theorem Course.digitLimit_eq (h : Course d history e) : e.digitLimit = d.digitLimit := by
  induction h with
  | refl => rfl
  | @refresh e f _ _ hr ih =>
    have hl := (leaves_refresh (d := e)).2.2
    rw [hr] at hl
    exact hl.trans ih
  | mark _ _ _ ih => exact ih
  | step _ _ ih => exact ih

theorem Course.keep {P : Machine → Prop} (hP : Kept P) (h : Course d history e)
    (hd : P d.machine) : P e.machine := by
  induction h with
  | refl => exact hd
  | step _ hs ih =>
    rw [← after_of_ok hs]
    exact hP.after ih
  | refresh _ hr ih =>
    rw [(of_refresh hr).1]
    exact hP.drained ih
  | mark _ _ _ ih => exact ih

/-- The step that ends an action leaves what any step on the machine does. -/
theorem ends_of_tick (hm : m.IsRunning) (ht : tick m = (some pause, n)) :
    n = m.after ∧ m.tryStep.1 ≠ .progressed .running ∧
      ∀ failure, pause = .failed failure ↔ m.tryStep.1 = .interrupted (.failed failure) := by
  rcases m.running_or_ends with ⟨k, hs⟩ | he
  · rw [tick_of_running hs] at ht
    cases ht
  · obtain ⟨p, hp, hf⟩ := tick_of_ends hm he
    rw [hp] at ht
    cases ht
    exact ⟨rfl, he, hf⟩

theorem leaves_conclude (pause : Pause) (d : Debugger) :
    ((leaves (conclude pause d)).machine = d.machine.drained ∨
      (leaves (conclude pause d)).machine = d.machine) ∧
    (leaves (conclude pause d)).digitLimit = d.digitLimit := by
  cases pause with
  | rest => exact ⟨.inl leaves_refresh.1, leaves_refresh.2.2⟩
  | failed failure =>
    cases failure with
    | fault f =>
      rw [conclude, report_eq, leaves_refresh.1, leaves_refresh.2.2]
      exact ⟨.inl rfl, rfl⟩
    | memoryLimit => exact ⟨.inr rfl, rfl⟩

theorem Performs.keep {P : Machine → Prop} (hP : Kept P) (h : Performs d history r)
    (hd : P d.machine) : P (leaves r).machine := by
  cases h with
  | rests h =>
    rw [leaves_refresh.1]
    exact hP.drained (h.keep hP hd)
  | @ends e _ pause n h hm ht =>
    have hn : P n := by
      rw [(ends_of_tick hm ht).1]
      exact hP.after (h.keep hP hd)
    rcases (leaves_conclude pause { e with machine := n }).1 with hl | hl
    · rw [hl]
      exact hP.drained hn
    · rw [hl]
      exact hn
  | idles => exact hd
  | marks =>
    obtain ⟨breakpoints, screen, hl⟩ := leaves_toggleBreakpoint (d := d)
    rw [hl]
    exact hd

/-- What a host can write is settled once for a session. -/
theorem Performs.digitLimit_eq (h : Performs d history r) :
    (leaves r).digitLimit = d.digitLimit := by
  cases h with
  | rests h => exact leaves_refresh.2.2.trans h.digitLimit_eq
  | ends h => exact (leaves_conclude _ _).2.trans h.digitLimit_eq
  | idles => rfl
  | marks =>
    obtain ⟨breakpoints, screen, hl⟩ := leaves_toggleBreakpoint (d := d)
    rw [hl]

end Debugger

end Wordcode
