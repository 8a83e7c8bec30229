import Wordcode.Debugger.Session

/-!
# The layout of the debugger

Which panels the debugger has, in which order, and what its keys do. Drawing them is left to a
terminal.
-/

namespace Wordcode

namespace Debugger

/-- Something that is drawn, inside a panel or on its own. -/
structure Widget where
  /-- What kind of widget it is. -/
  kind : String
  /-- The name by which it is found, if it has one. -/
  id : Option String
  /-- The groups whose style it takes, in ascending order. -/
  classes : List String
deriving DecidableEq, Repr

/-- An element of the layout. -/
inductive Element where
  /-- A titled panel around other widgets. -/
  | panel (frame : Widget) (title : String) (children : List Widget)
  /-- A widget on its own. -/
  | single (widget : Widget)
deriving DecidableEq, Repr

/-- A panel of the debugger around one widget. -/
def panelAround (kind id title content contentId : String) : Element :=
  .panel ⟨kind, some id, ["panel"]⟩ title [⟨content, some contentId, []⟩]

/-- The elements of the layout, from the top left to the bottom. -/
def layout : List Element :=
  [panelAround "ListingPanel" "listing-panel" "Program" "Static" "listing-content",
    panelAround "StatePanel" "state-panel" "Machine State" "Static" "state-content",
    panelAround "MemoryPanel" "memory-panel" "Memory" "Static" "memory-content",
    panelAround "OutputPanel" "output-panel" "Output" "RichLog" "output-log",
    panelAround "IOPanel" "io-panel" "IO" "Static" "io-content",
    .single ⟨"Input", some "input-box", []⟩,
    .single ⟨"Footer", none, []⟩]

/-- The title of the window. -/
def title : String := "Intcode Debugger"

/-- A key of the debugger. -/
structure Binding where
  /-- The key. -/
  key : String
  /-- The name of the command. -/
  command : String
  /-- The label shown for it. -/
  label : String
  /-- What the key does to a session, or `none` if it leaves the debugger. -/
  action : Option Action
deriving DecidableEq, Repr

/-- The keys of the debugger. -/
def bindings : List Binding :=
  [⟨"s", "step_1", "Step", some (.step 1)⟩,
    ⟨"n", "step_10", "x10", some (.step 10)⟩,
    ⟨"f", "step_100", "x100", some (.step 100)⟩,
    ⟨"r", "run_to_end", "Run", some .runToEnd⟩,
    ⟨"o", "run_to_output", "→Output", some .runToOutput⟩,
    ⟨"b", "toggle_breakpoint", "Break", some .toggleBreakpoint⟩,
    ⟨"q", "quit", "Quit", none⟩]

/-- The action of a key. -/
def actionOf? (key : String) : Option Action :=
  (bindings.find? (·.key = key)).bind (·.action)

end Debugger

end Wordcode
