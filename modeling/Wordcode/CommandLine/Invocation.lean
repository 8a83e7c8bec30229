import Wordcode.CommandLine.Arguments
import Wordcode.Mixed.Entry
import Wordcode.Text.Integer

/-!
# Invocations

What a command line asks for: to run a program file, to list it, or to debug it. `Invocation.parse`
yields the request, or why there is none. The numbers in it have to be such as the host reads.
-/

namespace Wordcode

/-- The name under which the program is called. -/
def programName : String := "python -m intcode"

/-- The commands. -/
inductive Command where
  | run
  | disassemble
  | debug
deriving DecidableEq, Repr

namespace Command

/-- The commands, in the order in which they are offered. -/
def all : List Command := [.run, .disassemble, .debug]

/-- The name of a command. -/
def name : Command → String
  | .run => "run"
  | .disassemble => "disasm"
  | .debug => "debug"

/-- The command of the given name. -/
def ofName? (name : String) : Option Command := all.find? (·.name = name)

end Command

/-- What an option stands for. -/
inductive Purpose where
  | help
  | trace
  | input
  | noun
  | verb
  | stats
  | autoRun
deriving DecidableEq, Repr

open Arguments in
/-- The option that asks for help. -/
def helpSwitch : Switch Purpose := ⟨["-h", "--help"], false, .help⟩

open Arguments in
/-- What may stand in front of a command. -/
def programGrammar : Grammar Purpose where
  switches := [helpSwitch, ⟨["--trace"], false, .trace⟩]
  operands := .rest

open Arguments in
/-- The options by which a program is prepared. -/
def preparationSwitches : List (Switch Purpose) :=
  [⟨["-i", "--input"], true, .input⟩, ⟨["--noun"], true, .noun⟩, ⟨["--verb"], true, .verb⟩]

open Arguments in
/-- What may stand behind a command. -/
def Command.grammar (command : Command) : Grammar Purpose where
  switches := match command with
    | .run => helpSwitch :: preparationSwitches ++ [⟨["--stats"], false, .stats⟩]
    | .disassemble => [helpSwitch]
    | .debug => helpSwitch :: preparationSwitches ++ [⟨["--run"], false, .autoRun⟩]
  operands := .one

/-- The words that a program is prepared with. -/
structure Preparation (α : Type) where
  /-- The input values. -/
  inputs : List α
  /-- The value for address 1. -/
  noun : Option α
  /-- The value for address 2. -/
  verb : Option α
deriving DecidableEq, Repr

/-- A preparation with a function applied to each word. -/
def Preparation.map {α β : Type} (f : α → β) (preparation : Preparation α) : Preparation β where
  inputs := preparation.inputs.map f
  noun := preparation.noun.map f
  verb := preparation.verb.map f

/-- What is known of a request while its words are read. -/
structure Settings where
  /-- The program file. -/
  file : Option String
  /-- The words that the program is prepared with. -/
  entries : Preparation Entry
  /-- Whether executed instructions are reported. -/
  trace : Bool
  /-- Whether counters are printed. -/
  stats : Bool
  /-- Whether a debugger starts with a run. -/
  autoRun : Bool
  /-- The words that have no place. -/
  extras : List String
deriving DecidableEq, Repr

/-- The settings of a command line without options. -/
def Settings.default : Settings := ⟨none, ⟨[], none, none⟩, false, false, false, []⟩

/-- A request. -/
structure Invocation where
  command : Command
  /-- The program file. -/
  file : String
  settings : Settings
deriving DecidableEq, Repr

/-- Why a command line is no request. -/
inductive Refusal where
  /-- It asks for help, on a command if one is given. -/
  | help (command : Option Command)
  /-- It is wrong, in the part of a command if one is given. -/
  | misuse (command : Option Command) (misuse : Arguments.Misuse)
deriving DecidableEq, Repr

/-- The text of a refusal. -/
def Refusal.message : Refusal → String
  | .help none => "usage: " ++ programName ++ " [-h] [--trace] COMMAND ..."
  | .help (some command) => "usage: " ++ programName ++ " " ++ command.name ++ " [-h] ... file"
  | .misuse none wrong => programName ++ ": error: " ++ wrong.message
  | .misuse (some command) wrong =>
    programName ++ " " ++ command.name ++ ": error: " ++ wrong.message

namespace Settings

/-- The entry that the value of an option stands for. The mark `--` is never a value, so an option
that has nothing else behind its name is left with the empty list of values. -/
def readEntry (limit : DigitLimit) (switch : Arguments.Switch Purpose) (value : String) :
    Except Arguments.Misuse Entry :=
  if value = "--" then .ok .emptyList
  else match readInteger? limit value with
    | some n => .ok (.number n)
    | none => .error (.notInteger switch.title value)

/-- The settings with an option taken into account. -/
def set (limit : DigitLimit) (settings : Settings) (switch : Arguments.Switch Purpose)
    (value : Option String) : Except Arguments.Misuse Settings := do
  let entries := settings.entries
  let entry := readEntry limit switch (value.getD "")
  match switch.purpose with
  | .help => return settings
  | .trace => return { settings with trace := true }
  | .input =>
    return { settings with entries := { entries with inputs := entries.inputs ++ [← entry] } }
  | .noun => return { settings with entries := { entries with noun := some (← entry) } }
  | .verb => return { settings with entries := { entries with verb := some (← entry) } }
  | .stats => return { settings with stats := true }
  | .autoRun => return { settings with autoRun := true }

/-- The settings with the parts of a command line taken into account, and the operands behind
them. -/
def read (limit : DigitLimit) (command : Option Command) (settings : Settings) :
    List (Arguments.Part Purpose) → Except Refusal (Settings × List String)
  | [] => .ok (settings, [])
  | .option switch value :: parts =>
    if switch.purpose = .help then .error (.help command)
    else match settings.set limit switch value with
      | .error misuse => .error (.misuse command misuse)
      | .ok settings => read limit command settings parts
  | .operand word :: parts => read limit command { settings with file := some word } parts
  | .operands words :: _ => .ok (settings, words)
  | .extra word :: parts =>
    read limit command { settings with extras := settings.extras ++ [word] } parts
  | .misuse misuse :: _ => .error (.misuse command misuse)

end Settings

namespace Invocation

/-- The request that the words behind a command make, with the settings from in front of it. -/
def ofCommand (limit : DigitLimit) (settings : Settings) (command : Command)
    (words : List String) : Except Refusal Invocation := do
  let (settings, _) ← settings.read limit (some command) (Arguments.parse command.grammar words)
  match settings.file with
  | none => throw (.misuse (some command) (.missingOperand "file"))
  | some file =>
    if settings.extras.isEmpty then return { command, file, settings }
    else throw (.misuse none (.unrecognized settings.extras))

/-- The request that a command line makes. -/
def parse (limit : DigitLimit) (words : List String) : Except Refusal Invocation := do
  let (settings, operands) ←
    Settings.default.read limit none (Arguments.parse programGrammar words)
  match operands with
  | [] => throw (.misuse none (.missingOperand "command"))
  | name :: words =>
    match Command.ofName? name with
    | none => throw (.misuse none (.unknownCommand name (Command.all.map Command.name)))
    | some command => ofCommand limit settings command words

end Invocation

end Wordcode
