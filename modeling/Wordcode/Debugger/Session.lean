import Wordcode.Debugger.Panels
import Wordcode.Machine.Run
import Wordcode.Program.Reader

/-!
# Debugging sessions

A debugger drives a machine by actions: some steps, a run to the end or to the next output, setting
a breakpoint, supplying input. After an action it refreshes what it shows, in a fixed order: it
collects the outputs of the machine, redraws the panels, and writes what is new to the output log.

A fault of the program is a line in the output panel. Other things end an action early instead: the
host's memory limit, a program counter so far below 0 that there is no listing around it, and on a
host that limits digits a number that has too many of them. A refresh that fails keeps what it has
drawn so far; the outputs that it could not write are lost.

The machine is stepped as on a host that can write all that it traces.
-/

namespace Wordcode

/-- A line of the output panel. -/
inductive OutputLine where
  /-- A value that the program has output. -/
  | value (value : Int)
  /-- Something that went wrong. -/
  | error (message : String)
deriving DecidableEq, Repr

/-- The markup of a line of the output panel. -/
def OutputLine.text : OutputLine → String
  | .value n => toString n
  | .error message => styled "bold red" "Error:" ++ " " ++ escapeMarkup message

/-- What the panels show, each `none` until it is first drawn. -/
structure Screen where
  listing : Option String
  state : Option String
  memory : Option String
  input : Option String
deriving DecidableEq, Repr, Inhabited

/-- A screen on which nothing is drawn yet. -/
def Screen.blank : Screen := ⟨none, none, none, none⟩

/-- A debugging session. -/
structure Debugger where
  /-- The machine under inspection. -/
  machine : Machine
  /-- The addresses at which a run stops, in ascending order. -/
  breakpoints : List Int
  /-- The lines of the output panel. -/
  outputLines : Array OutputLine
  /-- The lines that have been written to the output log. -/
  log : Array OutputLine
  /-- What the panels show. -/
  screen : Screen
  /-- Whether a run is still going on. -/
  busy : Bool
  /-- The limit of the host on digits. -/
  digitLimit : DigitLimit
deriving DecidableEq, Repr, Inhabited

/-- Why an action ends early. -/
inductive DebuggerError where
  /-- An access would append more cells than the host can address. -/
  | memoryLimit
  /-- There is no listing around the program counter. -/
  | unlisted (error : Listing.LookupError)
  /-- A number that is to be shown has too many digits. -/
  | tooManyDigits (error : TooManyDigits)
  /-- A number that was entered has too many digits. -/
  | unread (error : Program.ReadError)
deriving DecidableEq, Repr

/-- The text of the error. -/
def DebuggerError.message : DebuggerError → String
  | .memoryLimit => Failure.memoryLimit.message
  | .unlisted e => e.message
  | .tooManyDigits e => e.message
  | .unread e => e.message

/-- The error of an action that ends because there is no listing. -/
def DebuggerError.ofListing : WritingError Listing.LookupError → DebuggerError
  | .own e => .unlisted e
  | .tooManyDigits e => .tooManyDigits e

namespace Debugger

/-- A session on a machine, before anything is drawn, on a host that does not limit digits. -/
def attach (machine : Machine) : Debugger where
  machine
  breakpoints := []
  outputLines := #[]
  log := #[]
  screen := .blank
  busy := false
  digitLimit := none

/-- A computation on a session that may end early, and leaves a session then too. -/
abbrev SessionM := EStateM DebuggerError Debugger

/-- What such a computation leaves. -/
abbrev SessionResult := EStateM.Result DebuggerError Debugger

/-! ## Refreshing -/

/-- Moves the outputs of the machine to the output panel, up to one that cannot be written: all are
taken from the machine before the first one is written. -/
def collectOutputs : SessionM Unit := fun d =>
  let limit := d.digitLimit
  let (values, machine) := d.machine.drainOutputs
  let lines := (limit.front values).map OutputLine.value
  let d := { d with machine, outputLines := d.outputLines.appendList lines }
  if limit.Writes values then .ok () d else .error (.tooManyDigits limit.excess) d

/-- Redraws the listing. -/
def refreshListing : SessionM Unit := fun d =>
  match listingText d.digitLimit d.machine d.breakpoints with
  | .error e => .error (.ofListing e) d
  | .ok text => .ok () { d with screen := { d.screen with listing := some text } }

/-- Redraws a panel with the given numbers in it. -/
def redraw (numbers : Machine → List Int) (draw : Machine → Screen → Screen) : SessionM Unit :=
  fun d =>
    if d.digitLimit.Writes (numbers d.machine) then
      .ok () { d with screen := draw d.machine d.screen }
    else .error (.tooManyDigits d.digitLimit.excess) d

/-- Redraws the registers and counters. -/
def refreshState : SessionM Unit :=
  redraw stateNumbers fun m screen => { screen with state := some (stateText m) }

/-- Redraws the memory. -/
def refreshMemory : SessionM Unit :=
  redraw memoryNumbers fun m screen => { screen with memory := some (memoryText m) }

/-- Redraws the pending inputs. -/
def refreshInput : SessionM Unit :=
  redraw inputNumbers fun m screen => { screen with input := some (inputText m) }

/-- Writes the lines of the output panel to the log that are not there yet. -/
def flushLog : SessionM Unit :=
  modify fun d => { d with log := d.log ++ d.outputLines.extract d.log.size d.outputLines.size }

/-- Brings everything that is shown up to date. -/
def refresh : SessionM Unit := do
  collectOutputs
  refreshListing
  refreshState
  refreshMemory
  refreshInput
  flushLog

/-- Shows an error in the output panel. -/
def report (message : String) : SessionM Unit := do
  modify fun d => { d with outputLines := d.outputLines.push (.error message) }
  refresh

/-! ## Stepping and running -/

/-- Why the steps of an action are over. -/
inductive Pause where
  /-- There is no reason to go on. -/
  | rest
  /-- A step failed. -/
  | failed (failure : Failure)
deriving DecidableEq, Repr

/-- One step, and whether another one can follow, or why none can. -/
def tick (m : Machine) : Option Pause × Machine :=
  if m.IsRunning then
    match m.tryStep with
    | (.progressed .running, m) => (none, m)
    | (.interrupted (.failed failure), m) => (some (.failed failure), m)
    | (_, m) => (some .rest, m)
  else (some .rest, m)

/-- Up to `count` steps. -/
def ticks : Nat → Machine → Pause × Machine
  | 0, m => (.rest, m)
  | count + 1, m =>
    match tick m with
    | (none, m) => ticks count m
    | (some pause, m) => (pause, m)

/-- Shows how the steps of an action ended. -/
def conclude : Pause → SessionM Unit
  | .rest => refresh
  | .failed (.fault f) => report f.message
  | .failed .memoryLimit => throw .memoryLimit

/-- Executes up to `count` steps, unless a run is going on. -/
def step (count : Nat) : SessionM Unit := do
  unless (← get).busy do
    let pause ← modifyGet fun d =>
      let (pause, machine) := ticks count d.machine
      (pause, { d with machine })
    conclude pause

/-- How many steps of a run go by between two refreshes. -/
def refreshInterval : Nat := 500

/-- One step of a run to the end. The number counts the steps so far. -/
def endRound : Debugger × Nat → Progress (Debugger × Nat) (SessionResult Pause)
  | (d, cycle) =>
    match tick d.machine with
    | (some pause, machine) => .done (.ok pause { d with machine })
    | (none, machine) =>
      let d := { d with machine }
      let cycle := cycle + 1
      if d.machine.pc ∈ d.breakpoints then .done (.ok .rest d)
      else if cycle % refreshInterval = 0 then
        match refresh d with
        | .ok _ d => .again (d, cycle)
        | .error e d => .done (.error e d)
      else .again (d, cycle)

/-- One step of a run to the next output, of which `seen` were there at the start. -/
def outputRound (seen : Nat) (d : Debugger) : Progress Debugger (SessionResult Pause) :=
  match tick d.machine with
  | (some pause, machine) => .done (.ok pause { d with machine })
  | (none, machine) =>
    let d := { d with machine }
    if seen < d.machine.outputs.size then .done (.ok .rest d)
    else if d.machine.pc ∈ d.breakpoints then .done (.ok .rest d)
    else .again d

/-- Shows how a run ended. -/
def concludeRun : SessionResult Pause → SessionResult Unit
  | .ok pause d => conclude pause d
  | .error e d => .error e d

/-- Runs until the machine halts, waits for input, fails or comes to a breakpoint. -/
def runToEnd (fuel : Nat) (d : Debugger) : Option (SessionResult Unit) :=
  (loop endRound fuel (d, 0)).map concludeRun

/-- Runs as `runToEnd` does, but not past an output. -/
def runToOutput (fuel : Nat) (d : Debugger) : Option (SessionResult Unit) :=
  (loop (outputRound d.machine.outputs.size) fuel d).map concludeRun

/-! ## Actions -/

/-- Sets a breakpoint at the program counter, or takes it away. -/
def toggleBreakpoint : SessionM Unit := do
  modify fun d =>
    let pc := d.machine.pc
    if pc ∈ d.breakpoints then { d with breakpoints := d.breakpoints.erase pc }
    else { d with breakpoints := (pc :: d.breakpoints).mergeSort }
  refreshListing

/-- Queues the values that were read from a line of text, or shows why none were. -/
def enter : Except Program.ReadError (List Int) → SessionM Unit
  | .error (.tooManyDigits e) => throw (.unread (.tooManyDigits e))
  | .error e => report e.message
  | .ok values => do
    modify fun d => { d with machine := d.machine.addInputs values }
    refresh

/-- Queues the values that a line of text holds. -/
def submit (line : String) : SessionM Unit := do
  let line := trimBlanks line
  unless line.isEmpty do
    enter (Program.read (← get).digitLimit line)

/-- What a key can stand for. -/
inductive Action where
  | step (count : Nat)
  | runToEnd
  | runToOutput
  | toggleBreakpoint
deriving DecidableEq, Repr

/-- Carries out an action. -/
def perform (fuel : Nat) (action : Action) (d : Debugger) : Option (SessionResult Unit) :=
  match action with
  | .step count => some (step count d)
  | .runToEnd => runToEnd fuel d
  | .runToOutput => runToOutput fuel d
  | .toggleBreakpoint => some (toggleBreakpoint d)

/-- Begins a session, with a run to the end if `autoRun` is set. -/
def start (fuel : Nat) (autoRun : Bool) (d : Debugger) : Option (SessionResult Unit) :=
  match refresh d with
  | .error e d => some (.error e d)
  | .ok () d => if autoRun then runToEnd fuel d else some (.ok () d)

end Debugger

end Wordcode
