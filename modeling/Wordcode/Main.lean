import Wordcode.CommandLine.Report
import Wordcode.Debugger.Layout

/-!
# The program

Reads the command line and the program file, and prints the report. A debugging session is held line
by line: a key of the debugger alone on a line is that key, and any other line is input.
-/

namespace Wordcode

/-- More rounds than any run takes: 2⁶². -/
def ample : Nat := 4611686018427387904

/-- What stands at a path. -/
def Source.ofPath (path : String) : IO Source := do
  try
    return .file (← IO.FS.readBinFile path).toList
  catch
    | .noFileOrDirectory .. => return .missing
    -- a path that goes on behind a file cannot be opened; a directory can, and then not be read
    | .inappropriateType (some _) .. => return .missing
    | .inappropriateType none .. => return .directory
    | e => throw e

/-- Prints a report, and yields the exit code. -/
def Report.print (report : Report) : IO UInt32 := do
  for line in report.output do
    IO.println line
  for line in report.errors do
    IO.eprintln line
  match report.exit with
  | .code code => return code.toUInt32
  | .crash crash =>
    IO.eprintln crash.message
    return exitFailed.toUInt32

/-- Prints a panel under its title. -/
def printPanel (title : String) (content : Option String) : IO Unit := do
  IO.println s!"-- {title}"
  IO.println (String.ofList (plainText false (content.getD "").toList))

/-- Prints what a session shows. -/
def Debugger.print (d : Debugger) : IO Unit := do
  printPanel "Program" d.screen.listing
  printPanel "Machine State" d.screen.state
  printPanel "Memory" d.screen.memory
  printPanel "Output" (some ("\n".intercalate (d.log.toList.map OutputLine.text)))
  printPanel "IO" d.screen.input

/-- The session after an action, with the error printed if the action ended early. -/
def Debugger.settle (d : Debugger)
    (result : Option (SessionResult Unit)) : IO Debugger := do
  match result with
  | none => return d
  | some (.ok _ d) =>
    d.print
    return d
  | some (.error e d) =>
    d.print
    IO.eprintln e.message
    return d

/-- Holds a session until its input ends or the key `q` is pressed. -/
partial def Debugger.converse (d : Debugger) : IO Unit := do
  let line ← (← IO.getStdin).getLine
  let key := trimBlanks line
  unless line.isEmpty || key = "q" do
    let result := match Debugger.actionOf? key with
      | some action => d.perform ample action
      | none => some (Debugger.submit key d)
    (← d.settle result).converse

end Wordcode

open Wordcode in
/-- Answers the command line. This host does not limit digits. -/
def main (words : List String) : IO UInt32 := do
  match Invocation.parse none words with
  | .error refusal => refusal.report.print
  | .ok invocation =>
    match invocation.respond none ample (← Source.ofPath invocation.path) with
    | none => return exitFailed.toUInt32
    | some (.report report) => report.print
    | some (.session machine autoRun) =>
      let d := Debugger.attach machine
      (← d.settle (d.start ample autoRun)).converse
      return 0
