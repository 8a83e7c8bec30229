import Wordcode.Calling.Arguments
import Wordcode.CommandLine.Invocation
import Wordcode.CommandLine.Path
import Wordcode.Machine.Tracing
import Wordcode.Mixed.Machine
import Wordcode.Program.Reader
import Wordcode.Text.Utf8

/-!
# Reports

What the program prints for a request, and how it exits, given what stands at the path of the
program file. A request to debug a program that can be loaded has no report: it opens a session.

Where the host limits digits, the program crashes at a number that has too many of them: while it
loads the file, in the middle of a run that is traced, or while it prints the values, of which those
in front are printed.
-/

namespace Wordcode

/-- What stands at a path. -/
inductive Source where
  /-- Nothing. -/
  | missing
  /-- A directory. -/
  | directory
  /-- A file with its bytes. -/
  | file (bytes : List UInt8)
deriving DecidableEq, Repr

/-- An error that ends the program before its time. -/
inductive Crash where
  /-- An access would append more cells than the host can address. -/
  | memoryLimit
  /-- A directory was to be read as a file. -/
  | isDirectory (path : String)
  /-- An empty list was used where only a number can be. -/
  | misusedEntry (error : EntryError)
  /-- A number in the program file has too many digits. -/
  | unread (error : Program.ReadError)
  /-- A number that is to be written has too many digits. -/
  | tooManyDigits (error : TooManyDigits)
deriving DecidableEq, Repr

/-- The text of the error. -/
def Crash.message : Crash → String
  | .memoryLimit => Failure.memoryLimit.message
  | .misusedEntry error => error.message
  | .isDirectory path => "[Errno 21] Is a directory: " ++ quoted path
  | .unread error => error.message
  | .tooManyDigits error => error.message

/-- How the program ends. -/
inductive Exit where
  | code (code : Nat)
  | crash (crash : Crash)
deriving DecidableEq, Repr

/-- What the program prints and how it ends. -/
structure Report where
  exit : Exit
  /-- The lines of the standard output. -/
  output : List String
  /-- The lines of the standard error. -/
  errors : List String
deriving DecidableEq, Repr

/-- The exit code after an error. -/
def exitFailed : Nat := 1

/-- The exit code after a run that waits for input. -/
def exitBlocked : Nat := 2

/-- The exit code after a misuse of the command line. -/
def exitMisuse : Nat := 2

/-- The report of a single error. -/
def Report.ofError (message : String) : Report where
  exit := .code exitFailed
  output := []
  errors := ["Error: " ++ message]

/-- The report of a program that ends before it has printed anything. -/
def Report.ofCrash (crash : Crash) : Report where
  exit := .crash crash
  output := []
  errors := []

/-- The report of a command line that makes no request. -/
def Refusal.report (refusal : Refusal) : Report :=
  match refusal with
  | .help _ => { exit := .code 0, output := [refusal.message], errors := [] }
  | .misuse .. => { exit := .code exitMisuse, output := [], errors := [refusal.message] }

/-- The program in a file. -/
def loadProgram (limit : DigitLimit) (path : String) : Source → Except Report (List Int)
  | .missing => .error (.ofError ("File not found: " ++ path))
  | .directory => .error (.ofCrash (.isDirectory path))
  | .file bytes =>
    match Utf8.decode bytes with
    | .error e => .error (.ofError (path ++ ": " ++ e.message))
    | .ok text =>
      match Program.read limit (String.ofList (unifyNewlines text)) with
      | .error (.tooManyDigits e) => .error (.ofCrash (.unread (.tooManyDigits e)))
      | .error e => .error (.ofError (path ++ ": " ++ e.message))
      | .ok words => .ok words

/-- A program with the noun and the verb of a preparation written into it. -/
def Preparation.patch (preparation : Preparation Int) (program : List Int) :
    Except Program.PatchError (List Int) :=
  Program.patch program
    ((preparation.noun.map (nounAddress, ·)).toList ++
      (preparation.verb.map (verbAddress, ·)).toList)

/-- The addresses at which a preparation writes the empty list. -/
def Preparation.emptyCells (preparation : Preparation Entry) : List Int :=
  (if preparation.noun = some .emptyList then [nounAddress] else []) ++
    if preparation.verb = some .emptyList then [verbAddress] else []

/-- Some word of the preparation is the empty list. -/
def Preparation.IsMixed (preparation : Preparation Entry) : Prop :=
  .emptyList ∈ preparation.inputs ∨ preparation.emptyCells ≠ []

instance (preparation : Preparation Entry) : Decidable preparation.IsMixed :=
  inferInstanceAs (Decidable (_ ∨ _))

/-! ## Runs -/

/-- What is said of a run that ended at an interrupt, and the exit code. -/
def Interrupt.verdict : Interrupt → Exit × List String
  | .blocked address =>
    (.code exitBlocked, ["Blocked: " ++ (Interrupt.blocked address).message])
  | .failed (.fault f) => (.code exitFailed, ["Error: " ++ f.message])
  | .failed .memoryLimit => (.crash .memoryLimit, [])

/-- What is said of a run with entries that ended early, and the exit code. -/
def MixedMachine.RunError.verdict : MixedMachine.RunError → Exit × List String
  | .interrupted interrupt => interrupt.verdict
  | .misused error => (.crash (.misusedEntry error), [])
  | .tooManyDigits error => (.crash (.tooManyDigits error), [])

/-- What is said of a run that may also end at a number that cannot be written. -/
def WritingError.verdict {ε : Type} (ofError : ε → Exit × List String) :
    WritingError ε → Exit × List String
  | .own error => ofError error
  | .tooManyDigits error => (.crash (.tooManyDigits error), [])

/-- What a run leaves behind to be reported. -/
structure Remains where
  /-- The lines reported during the run. -/
  log : List String
  /-- The values to be printed. -/
  values : List Entry
  /-- The summary of the counters. -/
  summary : String
deriving DecidableEq, Repr

/-- The report of a run that ended with a verdict. -/
def Remains.report (limit : DigitLimit) (stats : Bool) (verdict : Exit × List String)
    (remains : Remains) : Report :=
  let (exit, messages) := verdict
  let errors := remains.log ++ messages
  match exit with
  | .crash _ => { exit, output := [], errors }
  | .code _ =>
    let printed := remains.values.takeWhile fun entry => limit.Writes entry.numbers
    let output := printed.map Entry.text
    let summary := if stats then [remains.summary] else []
    if limit.Writes (remains.values.flatMap Entry.numbers) then
      { exit, output, errors := errors ++ summary }
    else { exit := .crash (.tooManyDigits limit.excess), output, errors }

/-- The word at address 0, and the machine after it has been read. -/
def Machine.readFirst (m : Machine) : Int × Machine :=
  match m.memory.read 0 with
  | .ok (value, memory) => (value, { m with memory })
  | .error _ => (0, m) -- does not happen, because the host can address the first cell

/-- What a machine leaves behind after a run with the given exit. A program that halts without
outputs leaves its answer at address 0. -/
def Machine.remains (m : Machine) (exit : Exit) : Remains :=
  let log := m.journal.lines
  if m.outputs.toList.isEmpty && exit = .code 0 then
    let (first, m) := m.readFirst
    { log, values := [.number first], summary := m.summary }
  else { log, values := m.outputs.toList.map .number, summary := m.summary }

/-- What a mixed machine leaves behind after a run with the given exit. -/
def MixedMachine.remains (s : MixedMachine) (exit : Exit) : Remains :=
  let log := s.logLines
  if s.outputs.isEmpty && exit = .code 0 then
    let (_, m) := s.machine.readFirst
    { log, values := [s.peek 0], summary := m.summary }
  else { log, values := s.outputs, summary := s.machine.summary }

/-- The verdict on the result of a run. -/
def verdict {ε : Type} (ofError : ε → Exit × List String) :
    Except ε Unit → Exit × List String
  | .ok () => (.code 0, [])
  | .error e => ofError e

/-- The report of a run of a program, or `none` if the fuel does not suffice. -/
def reportRun (limit : DigitLimit) (fuel : Nat) (settings : Settings)
    (inputs program : List Int) : Option Report :=
  ((Machine.load program inputs settings.trace).runOn limit fuel).map fun (result, m) =>
    let verdict := verdict (WritingError.verdict Interrupt.verdict) result
    (m.remains verdict.1).report limit settings.stats verdict

/-- The report of a run of a program with the entries of the settings, which are 0 in the program
where they are empty lists, or `none` if the fuel does not suffice. -/
def reportMixedRun (limit : DigitLimit) (fuel : Nat) (settings : Settings)
    (program : List Int) : Option Report :=
  let entries := settings.entries
  let start := MixedMachine.load program entries.emptyCells entries.inputs settings.trace
  (start.run limit fuel).map fun (result, s) =>
    let verdict := verdict MixedMachine.RunError.verdict result
    (s.remains verdict.1).report limit settings.stats verdict

/-! ## Responses -/

/-- The report of a listing of a program. -/
def reportListing (limit : DigitLimit) (program : List Int) : Report :=
  match disassemble limit program.toArray 0 none with
  | .error (.tooManyDigits e) => .ofCrash (.tooManyDigits e)
  -- does not happen, because address 0 counts from the start
  | .error (.own _) => { exit := .code 0, output := [], errors := [] }
  | .ok lines =>
    { exit := .code 0
      output := lines.toList.map fun line =>
        alignRight 6 (toString line.address) ++ "  " ++ line.content.text
      errors := [] }

/-- What the program answers to a request. -/
inductive Response where
  /-- It prints a report and ends. -/
  | report (report : Report)
  /-- It opens a debugging session, which begins with a run if `autoRun` is set. -/
  | session (machine : Machine) (autoRun : Bool)

/-- The path of the program file, in its one form. -/
def Invocation.path (invocation : Invocation) : String := normalizePath invocation.file

/-- The answer to a request, given what stands at its path, or `none` if the fuel does not
suffice. A debugging session takes 0 for an empty list. -/
def Invocation.respond (limit : DigitLimit) (fuel : Nat) (invocation : Invocation)
    (source : Source) : Option Response :=
  let settings := invocation.settings
  let numbers := settings.entries.map Entry.toInt
  match loadProgram limit invocation.path source with
  | .error report => some (.report report)
  | .ok program =>
    match invocation.command with
    | .disassemble => some (.report (reportListing limit program))
    | .run =>
      match numbers.patch program with
      | .error e => some (.report (.ofError e.message))
      | .ok program =>
        if settings.entries.IsMixed then (reportMixedRun limit fuel settings program).map .report
        else (reportRun limit fuel settings numbers.inputs program).map .report
    | .debug =>
      match numbers.patch program with
      | .error e => some (.report (.ofError e.message))
      | .ok program =>
        some (.session (.load program numbers.inputs settings.trace) settings.autoRun)

end Wordcode
