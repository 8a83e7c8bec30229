import Wordcode.Fault
import Wordcode.Listing

/-!
# Journals

What machines and their hosts have to report while they run. A journal always keeps warnings; events
that only trace the execution it keeps if it is verbose. Events are values, rendered last
(`Event.render`).
-/

namespace Wordcode

/-- Something worth reporting. -/
inductive Event where
  /-- An instruction, with the words behind it, is about to be executed. -/
  | executing (address : Int) (instruction : Instruction) (literals : List Int)
  /-- A machine began to wait for input. -/
  | blocked (address : Int)
  /-- A machine met a fault. -/
  | faulted (fault : Fault)
  /-- A search found a pair of arguments. -/
  | found (noun verb : Nat) (result : Int)
  /-- A feedback loop ended. -/
  | loopFinished (rounds : Nat)
deriving DecidableEq, Repr

namespace Event

/-- How urgent an event is. -/
inductive Level where
  | debug
  | warning
deriving DecidableEq, Repr

/-- The name of a level. -/
def Level.name : Level → String
  | .debug => "DEBUG"
  | .warning => "WARNING"

/-- The level of an event: a fault is a warning. -/
def level : Event → Level
  | .faulted _ => .warning
  | _ => .debug

/-- The name under which machines report. -/
def machineOrigin : String := "intcode.machine"

/-- The name of the component that reports an event. -/
def origin : Event → String
  | .executing .. | .blocked _ | .faulted _ => machineOrigin
  | .found .. => "intcode.host"
  | .loopFinished _ => "intcode.network"

/-- The text that announces the execution of an instruction. -/
def executionText (address : Int) (instruction : String) : String :=
  alignRight 6 (toString address) ++ "  " ++ instruction

/-- The text of an event. -/
def message : Event → String
  | .executing address instruction literals => executionText address (instruction.text literals)
  | .blocked address => s!"blocked on input at {address}"
  | .faulted fault => "machine fault: " ++ fault.message
  | .found noun verb result => s!"noun={noun} verb={verb} -> {result}"
  | .loopFinished rounds => s!"feedback loop finished after {rounds} rounds"

/-- A line of a journal: the level in a column of five, the origin and the text. -/
def line (level : Level) (origin message : String) : String :=
  alignRight 5 level.name ++ " " ++ origin ++ ": " ++ message

/-- The line of an event. -/
def render (event : Event) : String := line event.level event.origin event.message

end Event

/-- The events reported so far. -/
structure Journal where
  /-- Whether events below a warning are kept. -/
  verbose : Bool
  /-- The events kept, the first one first. -/
  events : Array Event
deriving DecidableEq, Repr, Inhabited

namespace Journal

/-- The journal that holds nothing. -/
def empty (verbose : Bool) : Journal := ⟨verbose, #[]⟩

/-- The journal with an event added, if it keeps events of that level. -/
def note (journal : Journal) (event : Event) : Journal :=
  if journal.verbose ∨ event.level = .warning then
    { journal with events := journal.events.push event }
  else journal

/-- The journal with the events of another added. -/
def append (journal other : Journal) : Journal :=
  { journal with events := journal.events ++ other.events }

/-- The journal without its events. -/
def cleared (journal : Journal) : Journal := { journal with events := #[] }

/-- The lines of the journal. -/
def lines (journal : Journal) : List String := journal.events.toList.map Event.render

@[simp] theorem verbose_note (journal : Journal) (event : Event) :
    (journal.note event).verbose = journal.verbose := by
  simp only [note]
  split <;> rfl

end Journal

end Wordcode
