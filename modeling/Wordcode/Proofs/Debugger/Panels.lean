import Wordcode.Proofs.Debugger.Display
import Wordcode.Proofs.Debugger.Refresh

/-!
# Where execution stands

As long as the program counter lies in the memory, the panels show it (`PanelsShow`). The
listing begins eight words before, and may pass over the program counter in the middle of
an instruction; then the one that begins there takes its place. Either way its addresses
grow, so one line of it, and no other, begins at the program counter
(`exists_shownLines_at`). The rows of the memory panel are cut at both ends of the memory,
but the row with the program counter is among them, and its cells and those of the other
rows are in the order of their addresses (`current_cells`).

A refresh that can write the numbers shows this and leaves the machine as it was, except
that it takes the outputs (`refresh_shows`). What a command does ends with a refresh, or
draws the listing again and leaves the machine alone, or does nothing. So once a debugger
has been opened, and as long as no command ends early, it shows where execution stands
(`faithful_of_mount`).
-/

namespace Wordcode

/-- Where the keys of a list grow, a member is the only one with its key. -/
theorem filter_eq_singleton {α κ : Type} [DecidableEq κ] [Preorder κ] {l : List α} {key : α → κ}
    {a : α} (hl : l.Pairwise (key · < key ·)) (ha : a ∈ l) :
    l.filter (key · = key a) = [a] := by
  obtain ⟨before, after, rfl⟩ := List.append_of_mem ha
  rw [List.pairwise_append, List.pairwise_cons] at hl
  obtain ⟨-, ⟨hafter, -⟩, hbefore⟩ := hl
  have hnone : before.filter (key · = key a) = [] :=
    List.filter_eq_nil_iff.2 fun b hb h =>
      (hbefore b hb a List.mem_cons_self).ne (of_decide_eq_true h)
  have hnone' : after.filter (key · = key a) = [] :=
    List.filter_eq_nil_iff.2 fun b hb h => (hafter b hb).ne' (of_decide_eq_true h)
  rw [List.filter_append, List.filter_cons, hnone, hnone', if_pos (decide_eq_true rfl),
    List.nil_append]

namespace Listing

variable {words : Array Int} {a : Int}

/-- The addresses of a walk grow. -/
theorem pairwise_walk (words : Array Int) (a : Int) :
    (walk words a).Pairwise (·.address < ·.address) := by
  fun_induction walk words a with
  | case1 a ha ih =>
    refine List.pairwise_cons.2 ⟨fun line hline => ?_, ih⟩
    have hpos := (shown words a).size_pos
    have hle := (of_mem_walk hline).1
    show a < line.address
    omega
  | case2 a ha => exact .nil

end Listing

namespace Debugger

open Listing Machine

/-- The program counter lies in the memory. -/
structure Stands (m : Machine) : Prop where
  nonneg : 0 ≤ m.pc
  lt_size : m.pc < m.memory.size

/-- The listing panel of a machine consists of these lines, and execution stands at the line
`here`. -/
structure ListingShows (limit : DigitLimit) (m : Machine) (breakpoints : List Int)
    (text : String) (lines : List Line) (here : Line) : Prop where
  /-- The lines of the panel, in the markup of what is seen of them. -/
  texts : textLines text = lines.map (markedLine m.pc breakpoints)
  /-- They are lines of one listing, which begins at most eight words before the program
  counter. -/
  listed : ∃ start, max 0 (m.pc - 8) ≤ start ∧ start ≤ m.pc ∧
    disassemble limit m.memory.cells start (some listingLines) = .ok lines.toArray
  seen : ∀ line ∈ lines, plainText false (markedLine m.pc breakpoints line).toList =
    (lineShown m.pc breakpoints line).toList
  /-- What a line shows is the one entry of a listing from its address. -/
  entries : ∀ line ∈ lines, disassemble limit m.memory.cells line.address (some 1) = .ok #[line]
  /-- A line has a dot exactly if there is a breakpoint. -/
  dots : ∀ line ∈ lines,
    '●' ∈ (markedLine m.pc breakpoints line).toList ↔ line.address ∈ breakpoints
  /-- One line has an arrow. -/
  arrow : (textLines text).filter ('▸' ∈ ·.toList) = [markedLine m.pc breakpoints here]
  /-- One line begins at the program counter. -/
  current : lines.filter (·.address = m.pc) = [here]
  /-- It is the one entry of a listing from there. -/
  entry : disassemble limit m.memory.cells m.pc (some 1) = .ok #[here]
  /-- What it shows is what the machine executes next, as long as it does. -/
  next : ∀ i, m.next? = some i ↔ m.fault = none ∧ m.IsRunning ∧
    here.content = .instruction i (literalsAt m.memory m.pc i.opcode.arity)

/-- The memory panel of a machine consists of these rows. -/
structure MemoryShows (m : Machine) (text : String) (rows : List MemoryRow) : Prop where
  /-- The lines of the panel, in the markup of what is seen of them. -/
  texts : textLines text = rows.map MemoryRow.text
  seen : ∀ row ∈ rows, plainText false row.text.toList = (rowShown m row.base).toList
  /-- A row has the cells from its address on, with their values. -/
  cells : ∀ row ∈ rows, row.cells = (List.range memoryColumns).map fun k =>
    ⟨row.base + k, m.memory.peek (row.base + k : Nat), ((row.base + k : Nat) : Int) = m.pc⟩
  /-- A cell is set in a style exactly if the program counter is there. -/
  styles : ∀ row ∈ rows, ∀ cell ∈ row.cells, '[' ∈ cell.text.toList ↔ cell.current = true
  /-- One cell is the one at the program counter. -/
  current : (rows.flatMap (·.cells)).filter (·.current) =
    [⟨m.pc.toNat, m.memory.peek m.pc, true⟩]

/-- The listing panel and the memory panel of a session show where its execution stands. -/
structure PanelsShow (d : Debugger) : Prop where
  listing : ∃ text lines here, d.screen.listing = some text ∧
    ListingShows d.digitLimit d.machine d.breakpoints text lines here
  memory : ∃ text rows, d.screen.memory = some text ∧ MemoryShows d.machine text rows

variable {limit : DigitLimit} {words : Array Int} {pc : Int} {breakpoints : List Int}
  {lines : List Line} {line here : Line} {m : Machine} {d e : Debugger}

/-! ## The listing -/

/-- The lines are in the order of their addresses, and show what stands there. -/
structure Proper (words : Array Int) (lines : List Line) : Prop where
  sorted : lines.Pairwise (·.address < ·.address)
  shows : ∀ line ∈ lines, 0 ≤ line.address ∧ line.address < words.size ∧
    line.content = shown words line.address

theorem Proper.entry (h : Proper words lines) (hw : WritesLines limit lines)
    (hline : line ∈ lines) : disassemble limit words line.address (some 1) = .ok #[line] := by
  obtain ⟨hle, hlt, hcontent⟩ := h.shows line hline
  rw [disassemble_one limit hle hlt, ← hcontent, if_pos (hw line hline)]

theorem Proper.filter_eq (h : Proper words lines) (hline : line ∈ lines) :
    lines.filter (·.address = line.address) = [line] := filter_eq_singleton h.sorted hline

theorem proper_listed {start : Int} (h : 0 ≤ start) (count : Nat) :
    Proper words (listed words start (some count)) where
  sorted := (pairwise_walk words start).sublist (List.take_sublist ..)
  shows line hline := by
    obtain ⟨hle, hlt, hcontent⟩ := of_mem_walk (mem_walk_of_mem_listed hline)
    exact ⟨by omega, hlt, hcontent⟩

/-- The lines around the program counter are those of a walk that begins at most eight words
before, and one of them begins there. -/
theorem exists_shownLines_at (hpc : 0 ≤ pc) (hlt : pc < words.size) :
    ∃ start, max 0 (pc - 8) ≤ start ∧ start ≤ pc ∧
      shownLines words pc = listed words start (some listingLines) ∧
      ∃ here ∈ shownLines words pc, here.address = pc := by
  rw [shownLines]
  split
  · -- no line of the walk begins there, so the one that does takes its place
    refine ⟨pc, by omega, Int.le_refl _, rfl, ⟨pc, shown words pc⟩, ?_, rfl⟩
    rw [listed_of_lt hlt (by decide)]
    exact List.mem_cons_self
  · next hpasses =>
    refine ⟨max 0 (pc - 8), Int.le_refl _, by omega, rfl, ?_⟩
    have hne : firstLines words pc ≠ [] := by
      rw [firstLines, listed_of_lt (by omega) (by decide)]
      exact List.cons_ne_nil _ _
    simpa [PassesOver, hne] using hpasses

theorem listingText_of_lines
    (h : linesAround limit m.memory.cells m.pc = .ok lines.toArray) :
    listingText limit m breakpoints = .ok
      (rowsText "(no program loaded)" (lines.map (markedLine m.pc breakpoints))) := by
  simp only [listingText, listingRows, h, bind, Except.bind, pure, Except.pure, List.map_map]
  refine congrArg (fun rows => Except.ok (rowsText _ rows)) (List.map_congr_left fun line _ => ?_)
  exact text_listingRow

/-- What the machine executes next is what stands at the program counter. -/
theorem next?_eq_some_iff_shown (h : Stands m) {i : Instruction} :
    m.next? = some i ↔ m.fault = none ∧ m.IsRunning ∧
      shown m.memory.cells m.pc = .instruction i (literalsAt m.memory m.pc i.opcode.arity) := by
  rw [next?_eq_some_iff, shown_cells h.nonneg]
  constructor
  · intro hm
    rw [hm.decoded]
    exact ⟨hm.sound, hm.running, rfl⟩
  · rintro ⟨hsound, hrunning, hshown⟩
    have hreached : m.memory.Allows m.pc := by
      refine ⟨h.nonneg, ?_⟩
      have hlt := h.lt_size
      simp only [Memory.growthLimit]
      omega
    cases hd : decode (m.memory.peek m.pc) with
    | error e =>
      rw [hd] at hshown
      cases hshown
    | ok j =>
      rw [hd] at hshown
      cases hshown
      exact ⟨hsound, hrunning, hreached, hd⟩

theorem listingShows_of_proper (h : Stands m) (hproper : Proper m.memory.cells lines)
    (hwrites : WritesLines limit lines)
    (hlisted : ∃ start, max 0 (m.pc - 8) ≤ start ∧ start ≤ m.pc ∧
      disassemble limit m.memory.cells start (some listingLines) = .ok lines.toArray)
    (hmem : here ∈ lines) (haddress : here.address = m.pc) : ListingShows limit m breakpoints
      (rowsText "(no program loaded)" (lines.map (markedLine m.pc breakpoints))) lines here where
  texts := textLines_listing (List.ne_nil_of_mem hmem)
  listed := hlisted
  seen _ _ := displays_markedLine.plainText_eq
  entries _ hline := hproper.entry hwrites hline
  dots _ _ := dot_mem_markedLine_iff
  arrow := by
    have hcurrent := hproper.filter_eq hmem
    rw [textLines_listing (List.ne_nil_of_mem hmem), List.filter_map, ← List.map_singleton,
      ← hcurrent, haddress]
    refine congrArg _ (List.filter_congr fun line _ => ?_)
    exact decide_eq_decide.2 arrow_mem_markedLine_iff
  current := haddress ▸ hproper.filter_eq hmem
  entry := haddress ▸ hproper.entry hwrites hmem
  next i := by rw [next?_eq_some_iff_shown h, (hproper.shows here hmem).2.2, haddress]

theorem exists_listingShows (h : Stands m)
    (hw : WritesLines limit (madeLines m.memory.cells m.pc)) (breakpoints : List Int) :
    ∃ text lines here, listingText limit m breakpoints = .ok text ∧
      ListingShows limit m breakpoints text lines here := by
  obtain ⟨start, hfirst, hle, hlines, here, hmem, haddress⟩ :=
    exists_shownLines_at h.nonneg h.lt_size
  have hstart : 0 ≤ start := (Int.le_max_left ..).trans hfirst
  have hwrites : WritesLines limit (shownLines m.memory.cells m.pc) := (writesLines_append.1 hw).2
  have haround : linesAround limit m.memory.cells m.pc =
      .ok (shownLines m.memory.cells m.pc).toArray :=
    (linesAround_of_listed limit (.inr (reaches_of_nonneg h.nonneg))).trans (if_pos hw)
  have hproper : Proper m.memory.cells (shownLines m.memory.cells m.pc) :=
    hlines ▸ proper_listed hstart listingLines
  have hlisted : disassemble limit m.memory.cells start (some listingLines) =
      .ok (shownLines m.memory.cells m.pc).toArray := by
    rw [hlines] at hwrites ⊢
    exact (disassemble_of_reaches (reaches_of_nonneg hstart) _).trans (if_pos hwrites)
  exact ⟨_, _, here, listingText_of_lines haround, listingShows_of_proper h hproper hwrites
    ⟨start, hfirst, hle, hlisted⟩ hmem haddress⟩

/-! ## The memory -/

/-- The addresses of the rows of the memory panel. -/
def panelBases (m : Machine) : List Nat :=
  ((List.range memoryRows).map fun k => (firstMemoryRow m.pc + k) * memoryColumns).takeWhile
    (· < m.memory.size)

theorem memoryPanelRows_eq (m : Machine) : memoryPanelRows m = (panelBases m).map (rowAt m) := rfl

/-- A row begins behind the cells of those above it. -/
theorem pairwise_panelBases (m : Machine) :
    (panelBases m).Pairwise (· + memoryColumns ≤ ·) := by
  refine List.Pairwise.sublist (List.takeWhile_sublist _) (List.pairwise_map.2 ?_)
  refine List.pairwise_lt_range.imp fun {j k} hjk => ?_
  rw [← Nat.succ_mul]
  exact Nat.mul_le_mul_right _ (by omega)

theorem mem_takeWhile_of_pairwise {l : List Nat} {n b : Nat} (hl : l.Pairwise (· < ·))
    (hb : b ∈ l) (hn : b < n) : b ∈ l.takeWhile (· < n) := by
  obtain ⟨before, after, rfl⟩ := List.append_of_mem hb
  have hbefore : ∀ c ∈ before, decide (c < n) = true := fun c hc => by
    have hlt := (List.pairwise_append.1 hl).2.2 c hc b List.mem_cons_self
    exact decide_eq_true (hlt.trans hn)
  rw [List.takeWhile_append_of_pos hbefore, List.takeWhile_cons, if_pos (decide_eq_true hn)]
  exact List.mem_append_right _ List.mem_cons_self

/-- The row that the program counter is in is shown. -/
theorem mem_panelBases (h : Stands m) :
    m.pc.toNat / memoryColumns * memoryColumns ∈ panelBases m := by
  obtain ⟨hpc, hlt⟩ := h
  have hsorted : ((List.range memoryRows).map
      fun k => (firstMemoryRow m.pc + k) * memoryColumns).Pairwise (· < ·) := by
    refine List.pairwise_map.2 (List.pairwise_lt_range.imp fun {j k} hjk => ?_)
    exact Nat.mul_lt_mul_of_pos_right (by omega) (by decide)
  refine mem_takeWhile_of_pairwise hsorted ?_ ?_
  · refine List.mem_map.2 ⟨m.pc.toNat / memoryColumns - firstMemoryRow m.pc, ?_, ?_⟩
    · rw [List.mem_range]
      simp only [firstMemoryRow, memoryRows, memoryColumns]
      omega
    · have hfirst : firstMemoryRow m.pc ≤ m.pc.toNat / memoryColumns := by
        simp only [firstMemoryRow, memoryRows, memoryColumns]
        omega
      show (firstMemoryRow m.pc + (m.pc.toNat / memoryColumns - firstMemoryRow m.pc)) * _ = _
      rw [Nat.add_sub_cancel' hfirst]
  · have hle := Nat.div_mul_le_self m.pc.toNat memoryColumns
    omega

/-- The cells are in the order of their addresses. -/
theorem pairwise_cells (m : Machine) :
    ((memoryPanelRows m).flatMap (·.cells)).Pairwise (·.address < ·.address) := by
  rw [memoryPanelRows_eq, List.flatMap_map, List.pairwise_flatMap]
  constructor
  · intro base _
    refine List.pairwise_map.2 (List.pairwise_lt_range.imp fun {j k} hjk => ?_)
    exact Nat.add_lt_add_left hjk base
  · refine (pairwise_panelBases m).imp fun {base base'} hbase cell hcell cell' hcell' => ?_
    obtain ⟨k, hk, rfl⟩ := List.mem_map.1 hcell
    obtain ⟨k', -, rfl⟩ := List.mem_map.1 hcell'
    have hlt := List.mem_range.1 hk
    show base + k < base' + k'
    omega

/-- Of the cells in the panel one is the one at the program counter. -/
theorem current_cells (h : Stands m) : ((memoryPanelRows m).flatMap (·.cells)).filter (·.current) =
    [⟨m.pc.toNat, m.memory.peek m.pc, true⟩] := by
  have hpc : (m.pc.toNat : Int) = m.pc := Int.toNat_of_nonneg h.nonneg
  have hhere : memoryCell m m.pc.toNat = ⟨m.pc.toNat, m.memory.peek m.pc, true⟩ := by
    simp only [memoryCell, hpc, decide_true]
  have hmem : memoryCell m m.pc.toNat ∈ (memoryPanelRows m).flatMap (·.cells) := by
    refine List.mem_flatMap.2 ⟨_, List.mem_map_of_mem (mem_panelBases h), ?_⟩
    refine List.mem_map.2 ⟨m.pc.toNat % memoryColumns, ?_, ?_⟩
    · exact List.mem_range.2 (Nat.mod_lt _ (by decide))
    · rw [Nat.div_add_mod']
  have hkey : ∀ cell ∈ (memoryPanelRows m).flatMap (·.cells),
      cell.current = decide (cell.address = (memoryCell m m.pc.toNat).address) := by
    intro cell hcell
    obtain ⟨row, hrow, hcell⟩ := List.mem_flatMap.1 hcell
    obtain ⟨base, -, rfl⟩ := List.mem_map.1 hrow
    obtain ⟨k, -, rfl⟩ := List.mem_map.1 hcell
    refine decide_eq_decide.2 ?_
    show ((base + k : Nat) : Int) = m.pc ↔ base + k = m.pc.toNat
    omega
  rw [List.filter_congr hkey, ← hhere]
  exact filter_eq_singleton (pairwise_cells m) hmem

theorem memoryShows (h : Stands m) : MemoryShows m (memoryText m) (memoryPanelRows m) where
  texts := by
    refine textLines_rowsText ?_ fun text htext => ?_
    · have hne := List.ne_nil_of_mem (mem_panelBases h)
      simpa [memoryPanelRows_eq] using hne
    · obtain ⟨row, -, rfl⟩ := List.mem_map.1 htext
      exact newline_not_mem_row
  seen row hrow := by
    obtain ⟨base, -, rfl⟩ := List.mem_map.1 hrow
    exact (displays_row m base).plainText_eq
  cells row hrow := by
    obtain ⟨base, -, rfl⟩ := List.mem_map.1 hrow
    rfl
  styles row _ cell _ := bracket_mem_cell_iff
  current := current_cells h

/-! ## Sessions -/

/-- A refresh that comes to its end shows where execution stands. -/
theorem refresh_shows (h : Stands d.machine) (hr : refresh d = .ok () e) : PanelsShow e ∧
    e.breakpoints = d.breakpoints ∧ e.machine = d.machine.drained := by
  have hd : Stands d.machine.drained := ⟨h.nonneg, h.lt_size⟩
  have hrefresh := refreshes d
  rw [hr] at hrefresh
  cases hrefresh with
  | @drawn text hl hw ht =>
    obtain ⟨text', lines, here, htext, hlisting⟩ :=
      exists_listingShows hd hw.listing d.breakpoints
    cases htext.symm.trans ht
    exact ⟨⟨⟨text, lines, here, rfl, hlisting⟩, ⟨_, _, rfl, memoryShows hd⟩⟩, rfl, rfl⟩

theorem refresh_ok_iff_writable (h : Stands d.machine) :
    (∃ e, refresh d = .ok () e) ↔ d.Writable := by
  have hl : d.InReach := reaches_of_nonneg h.nonneg
  rw [refresh_ok_iff (.inr h.nonneg), and_iff_right hl]

/-- The panels show where execution stands, if it stands anywhere. -/
def Faithful (d : Debugger) : Prop := Stands d.machine → PanelsShow d

theorem faithful_of_refresh (hr : refresh d = .ok () e) : Faithful e := fun he => by
  have hd : Stands d.machine := by
    rw [(of_refresh hr).1] at he
    exact ⟨he.nonneg, he.lt_size⟩
  exact (refresh_shows hd hr).1

/-- If only the listing is drawn again, the other panels still show the machine. -/
theorem faithful_of_refreshListing (hd : Faithful d)
    (hr : refreshListing { d with breakpoints } = .ok () e) : Faithful e := by
  rcases refreshListing_cases { d with breakpoints } with
    ⟨-, hw, text, ht, hdrawn⟩ | ⟨-, herror⟩ | ⟨-, herror⟩
  · cases hdrawn.symm.trans hr
    intro hm
    obtain ⟨text', lines, here, htext, hlisting⟩ :=
      exists_listingShows (m := d.machine) hm hw breakpoints
    cases ht.symm.trans htext
    exact ⟨⟨text, lines, here, rfl, hlisting⟩, (hd hm).memory⟩
  · cases herror.symm.trans hr
  · cases herror.symm.trans hr

theorem faithful_of_conclude {pause : Pause} (hr : conclude pause d = .ok () e) : Faithful e := by
  cases pause with
  | rest => exact faithful_of_refresh hr
  | failed failure =>
    cases failure with
    | fault f => exact faithful_of_refresh (report_eq.symm.trans hr)
    | memoryLimit => cases hr

theorem Performs.faithful {history : List Machine} {r : SessionResult Unit}
    (hp : Performs d history r) (hd : Faithful d) (hr : r = .ok () e) : Faithful e := by
  cases hp with
  | rests => exact faithful_of_refresh hr
  | ends => exact faithful_of_conclude hr
  | idles =>
    cases hr
    exact hd
  | marks =>
    obtain ⟨breakpoints, ht⟩ := exists_toggleBreakpoint_eq (d := d)
    exact faithful_of_refreshListing hd (ht.symm.trans hr)

theorem faithful_of_start {fuel : Nat} {autoRun : Bool}
    (hr : start fuel autoRun d = some (.ok () e)) : Faithful e := by
  obtain hrefresh | ⟨f, hrefresh, hrun⟩ := start_cases hr
  · exact faithful_of_refresh hrefresh.symm
  · exact (performs hrun).faithful (faithful_of_refresh hrefresh) rfl

theorem Faithful.obey {fuel : Nat} {command : Command} (hd : Faithful d)
    (hr : Debugger.obey fuel command d = some (.ok () e)) : Faithful e := by
  cases command with
  | mount autoRun => exact faithful_of_start hr
  | act action => exact (performs hr).faithful hd rfl
  | submit line =>
    have hs := submits line d
    rw [Option.some.inj hr] at hs
    generalize hresult : (EStateM.Result.ok () e : SessionResult Unit) = r at hs
    cases hs with
    | idles =>
      cases hresult
      exact hd
    | refuses message => exact faithful_of_refresh (report_eq.symm.trans hresult.symm)
    | queues values => exact faithful_of_refresh hresult.symm
    | fails => cases hresult

/-- The session after commands that are all carried out to their end. -/
def carryOut (fuel : Nat) : List Command → Debugger → Option Debugger
  | [], d => some d
  | command :: commands, d =>
    match obey fuel command d with
    | some (.ok () e) => carryOut fuel commands e
    | _ => none

theorem Faithful.carryOut {fuel : Nat} {commands : List Command} (hd : Faithful d)
    (hr : Debugger.carryOut fuel commands d = some e) : Faithful e := by
  fun_induction Debugger.carryOut fuel commands d with
  | case1 =>
    cases hr
    exact hd
  | case2 d command commands f hf ih => exact ih (hd.obey hf) hr
  | case3 => cases hr

theorem faithful_of_mount {fuel : Nat} {autoRun : Bool} {commands : List Command}
    (hr : carryOut fuel (.mount autoRun :: commands) d = some e) : Faithful e := by
  rw [carryOut] at hr
  split at hr
  · next f hf => exact (faithful_of_start hf).carryOut hr
  · cases hr

/-- Where the program counter lies in the memory, a refresh comes to its end exactly if the
host can write the numbers that are shown, as any host can that does not limit digits. Then
the listing and the memory panel show where execution stands, with any breakpoints, and the
machine is as it was, except that its outputs have been taken. And from the time that it has
been opened a debugger always shows this, as long as its commands come to their end. -/
theorem panels_show_execution :
    (∀ d : Debugger, 0 ≤ d.machine.pc → d.machine.pc < d.machine.memory.size →
      ((∃ e, refresh d = .ok () e) ↔ d.Writable) ∧ (d.digitLimit = none → d.Writable) ∧
      ∀ e, refresh d = .ok () e → PanelsShow e ∧ e.breakpoints = d.breakpoints ∧
        e.machine = d.machine.drained ∧ e.machine.pc = d.machine.pc ∧
        e.machine.memory = d.machine.memory ∧ e.machine.counters = d.machine.counters) ∧
    ∀ (fuel : Nat) (m : Machine) (autoRun busy : Bool) (limit : DigitLimit)
      (commands : List Command) (d : Debugger),
      carryOut fuel (.mount autoRun :: commands)
        { attach m with busy, digitLimit := limit } = some d →
      0 ≤ d.machine.pc → d.machine.pc < d.machine.memory.size → PanelsShow d := by
  refine ⟨fun d hpc hlt => ⟨refresh_ok_iff_writable ⟨hpc, hlt⟩, writable_of_none, fun e hr => ?_⟩,
    fun fuel m autoRun busy limit commands d hr hpc hlt => faithful_of_mount hr ⟨hpc, hlt⟩⟩
  obtain ⟨hshows, hbreakpoints, hm⟩ := refresh_shows ⟨hpc, hlt⟩ hr
  exact ⟨hshows, hbreakpoints, hm, by rw [hm]; rfl, by rw [hm]; rfl, by rw [hm]; rfl⟩

/-- After a jump the program counter is where no line of the first walk begins. -/
theorem panels_show_execution_misaligned : ∃ d,
    carryOut 9 [.mount false, .act (.step 1), .act .toggleBreakpoint]
      (attach (load [1105, 1, 4, 1101, 104, 7, 99] [] false)) = some d ∧
    d.machine.pc = 4 ∧ d.breakpoints = [4] ∧
    d.screen.listing = some "[bold reverse]●▸      4│ OUT  7[/bold reverse]\n        6│ HLT" ∧
    PanelsShow d ∧ ∃ e, refresh d = .ok () e ∧ PanelsShow e ∧
      e.machine.memory = d.machine.memory ∧ e.machine.counters = d.machine.counters := by
  have hrun : (carryOut 9 [.mount false, .act (.step 1), .act .toggleBreakpoint]
      (attach (load [1105, 1, 4, 1101, 104, 7, 99] [] false))).map
        (fun d => (d.machine.pc, d.machine.memory.size, d.breakpoints, d.screen.listing,
          d.digitLimit)) =
      some (4, 7, [4],
        some "[bold reverse]●▸      4│ OUT  7[/bold reverse]\n        6│ HLT", none) := by
    decide +kernel
  obtain ⟨d, hd, hview⟩ := Option.map_eq_some_iff.1 hrun
  simp only [Prod.mk.injEq] at hview
  obtain ⟨hpc, hsize, hbreakpoints, hlisting, hlimit⟩ := hview
  have hnonneg : 0 ≤ d.machine.pc := by omega
  have hlt : d.machine.pc < d.machine.memory.size := by omega
  obtain ⟨hends, hwrites, hshown⟩ := panels_show_execution.1 d hnonneg hlt
  obtain ⟨e, hr⟩ := hends.2 (hwrites hlimit)
  obtain ⟨hshows, -, -, -, hmemory, hcounters⟩ := hshown e hr
  have hall := panels_show_execution.2 9 (load [1105, 1, 4, 1101, 104, 7, 99] [] false) false false
    none [.act (.step 1), .act .toggleBreakpoint] d hd hnonneg hlt
  exact ⟨d, hd, hpc, hbreakpoints, hlisting, hall, e, hr, hshows, hmemory, hcounters⟩

end Debugger

end Wordcode
