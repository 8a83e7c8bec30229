import Wordcode.Machine.Basic
import Wordcode.Text.Markup

/-!
# Panels

What a debugger shows of a machine: the listing around the program counter, the registers and
counters, the memory around the program counter and the pending inputs. Listing and memory are first
rows of data, and their texts come last.

The listing begins eight words before the program counter. Those words may be data, or the middle of
an instruction, so that no line begins at the program counter; then the listing begins there.

Beside its text, each panel says which numbers of the program stand in it, since a host that limits
digits has to write them.
-/

namespace Wordcode

namespace Debugger

/-- The most lines of a listing. -/
def listingLines : Nat := 24

/-- The most rows of a memory panel. -/
def memoryRows : Nat := 24

/-- The number of cells in a row of a memory panel. -/
def memoryColumns : Nat := 8

/-! ## The listing -/

/-- A line of a listing as a debugger shows it. -/
structure ListingRow where
  /-- The line. -/
  line : Listing.Line
  /-- Whether the line begins at the program counter. -/
  current : Bool
  /-- Whether there is a breakpoint at the line. -/
  breakpoint : Bool
deriving DecidableEq, Repr

/-- The lines around the program counter. -/
def linesAround (limit : DigitLimit) (words : Array Int) (pc : Int) :
    Except (WritingError Listing.LookupError) (Array Listing.Line) := do
  let lines ← disassemble limit words (max 0 (pc - 8)) (some listingLines)
  if !lines.isEmpty && lines.all (·.address ≠ pc) then
    disassemble limit words pc (some listingLines)
  else return lines

/-- The rows of the listing panel. -/
def listingRows (limit : DigitLimit) (m : Machine) (breakpoints : List Int) :
    Except (WritingError Listing.LookupError) (List ListingRow) := do
  let lines ← linesAround limit m.memory.cells m.pc
  return lines.toList.map fun line =>
    { line
      current := line.address = m.pc
      breakpoint := line.address ∈ breakpoints }

/-- The text of a row of the listing. -/
def ListingRow.text (row : ListingRow) : String :=
  let dot := if row.breakpoint then "●" else " "
  let arrow := if row.current then "▸" else " "
  let address := alignRight 6 (toString row.line.address)
  let text := dot ++ arrow ++ " " ++ address ++ "│ " ++ escapeMarkup row.line.content.text
  if row.current then styled "bold reverse" text else text

/-- The text of rows, one a line, or a notice if there are none. -/
def rowsText (notice : String) (rows : List String) : String :=
  if rows.isEmpty then notice else "\n".intercalate rows

/-- The text of the listing panel. -/
def listingText (limit : DigitLimit) (m : Machine) (breakpoints : List Int) :
    Except (WritingError Listing.LookupError) String := do
  let rows ← listingRows limit m breakpoints
  return rowsText "(no program loaded)" (rows.map ListingRow.text)

/-! ## Registers and counters -/

/-- The name of a status on the screen. -/
def statusName : Status → String
  | .running => "RUNNING"
  | .waiting => "WAITING"
  | .stopped => "STOPPED"

/-- The text of the state panel. -/
def stateText (m : Machine) : String :=
  let c := m.counters
  let label (name : String) := styled "bold" (name ++ ":") ++ " "
  let lines :=
    [label "State" ++ statusName m.status ++ "    " ++ label "Steps" ++ toString c.steps,
      label "PC" ++ toString m.pc ++ "  " ++ label "RB" ++ toString m.base,
      label "Memory" ++ toString m.memory.size ++ " cells  " ++
        toString c.reads ++ "R/" ++ toString c.writes ++ "W",
      label "IO" ++ toString c.inputs ++ " in / " ++ toString c.outputs ++ " out"]
  let fault := match m.fault with
    | none => []
    | some f => [styled "bold red" "Fault:" ++ " " ++ escapeMarkup f.message]
  "\n".intercalate (lines ++ fault)

/-- The numbers in the state panel. -/
def stateNumbers (m : Machine) : List Int := [m.pc, m.base]

/-! ## Memory -/

/-- A cell as the memory panel shows it. -/
structure MemoryCell where
  address : Nat
  value : Int
  /-- Whether the program counter is at the cell. -/
  current : Bool
deriving DecidableEq, Repr

/-- A row of the memory panel. -/
structure MemoryRow where
  /-- The address of the first cell. -/
  base : Nat
  cells : List MemoryCell
deriving DecidableEq, Repr

/-- The cell of a machine at an address. -/
def memoryCell (m : Machine) (address : Nat) : MemoryCell where
  address
  value := m.memory.peek address
  current := (address : Int) = m.pc

/-- The first row of a memory panel, counted from address 0. -/
def firstMemoryRow (pc : Int) : Nat := (pc / memoryColumns - memoryRows / 2).toNat

/-- The rows of the memory panel: those around the program counter that begin in the memory. -/
def memoryPanelRows (m : Machine) : List MemoryRow :=
  let first := firstMemoryRow m.pc
  let bases := (List.range memoryRows).map fun k => (first + k) * memoryColumns
  (bases.takeWhile (· < m.memory.size)).map fun base =>
    { base, cells := (List.range memoryColumns).map fun k => memoryCell m (base + k) }

/-- The text of a cell in the memory panel. -/
def MemoryCell.text (cell : MemoryCell) : String :=
  let text := alignRight 8 (toString cell.value)
  if cell.current then styled "green" text else text

/-- The text of a row of the memory panel. -/
def MemoryRow.text (row : MemoryRow) : String :=
  alignRight 6 (toString row.base) ++ ": " ++ " ".intercalate (row.cells.map MemoryCell.text)

/-- The text of the memory panel. -/
def memoryText (m : Machine) : String :=
  rowsText "(empty)" ((memoryPanelRows m).map MemoryRow.text)

/-- The numbers in the memory panel. -/
def memoryNumbers (m : Machine) : List Int :=
  (memoryPanelRows m).flatMap fun row => row.cells.map (·.value)

/-! ## Inputs -/

/-- The text of the panel of pending inputs. -/
def inputText (m : Machine) : String :=
  let pending :=
    if m.inputs.toList.isEmpty then "(empty)"
    else " ".intercalate (m.inputs.toList.map toString)
  let text := styled "bold" "IN:" ++ " " ++ pending
  if m.status = .waiting then text ++ "\n" ++ styled "yellow" "Waiting for input" else text

/-- The numbers in the panel of pending inputs. -/
def inputNumbers (m : Machine) : List Int := m.inputs.toList

end Debugger

end Wordcode
