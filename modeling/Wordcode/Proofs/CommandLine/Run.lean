import Wordcode.CommandLine.Report
import Wordcode.Proofs.Calling.Result
import Wordcode.Proofs.CommandLine.Words
import Wordcode.Proofs.Machine.Drivers
import Wordcode.Proofs.Machine.Extent
import Wordcode.Proofs.Machine.Trace

/-!
# Runs from the command line

A program file that is run is loaded (`Parses`), prepared (`patch_preparation`), and run
on a machine, and the report tells how the run ended (`Report.Shows`). A machine that has
halted has a memory (`size_pos_of_halted`), so looking at the word at address 0 does not
change it (`readFirst_of_pos`), and the counters that are reported are those of the run.
Thus what is printed is what a call of the program returns.

A host that limits digits may be unable to read the file, to trace the run, or to print a
value (`Report.BreaksOff`). Then the program crashes, and what it has printed by then are
the values in front of that one. A host without limit reads and writes all numbers.
-/

namespace Wordcode

variable {limit : DigitLimit} {fuel : Nat} {invocation : Invocation}
  {preparation : Preparation Int} {bytes : List UInt8} {program p q : List Int}
  {m n : Machine} {outcome : Outcome}

/-! ## Program files -/

/-- A file with these bytes holds the program, and the host reads its numbers. -/
def Parses (limit : DigitLimit) (bytes : List UInt8) (program : List Int) : Prop :=
  ∃ text, Utf8.decode bytes = .ok text ∧
    Program.read limit (String.ofList (unifyNewlines text)) = .ok program

theorem loadProgram_of_parses {path : String} (h : Parses limit bytes program) :
    loadProgram limit path (.file bytes) = .ok program := by
  obtain ⟨text, htext, hprogram⟩ := h
  simp only [loadProgram, htext, hprogram]

/-- What is not the text of a program is refused, and nothing is printed. -/
theorem loadProgram_of_not_parses (limit : DigitLimit) (path : String)
    (h : ∀ p, ¬ Parses none bytes p) :
    ∃ message, loadProgram limit path (.file bytes) = .error (.ofError message) := by
  cases htext : Utf8.decode bytes with
  | error e => exact ⟨path ++ ": " ++ e.message, by simp only [loadProgram, htext]⟩
  | ok text =>
    rcases Program.read_cases limit (String.ofList (unifyNewlines text)) with
      ⟨words, hwords, -⟩ | ⟨-, e, he, hne⟩
    · exact absurd ⟨text, htext, hwords⟩ (h words)
    · refine ⟨path ++ ": " ++ e.message, ?_⟩
      simp only [loadProgram, htext, he]

/-- At a number that it cannot read the program crashes, and nothing is printed. -/
theorem loadProgram_of_unread (path : String) (h : Parses none bytes program)
    (hnot : ∀ p, ¬ Parses limit bytes p) :
    ∃ error, loadProgram limit path (.file bytes) = .error (.ofCrash (.unread error)) := by
  obtain ⟨text, htext, hprogram⟩ := h
  rcases Program.read_cases limit (String.ofList (unifyNewlines text)) with
    ⟨words, -, hwords | ⟨e, he⟩⟩ | ⟨hnone, -⟩
  · exact absurd ⟨text, htext, hwords⟩ (hnot words)
  · exact ⟨.tooManyDigits e, by simp only [loadProgram, htext, he]⟩
  · exact absurd hprogram (hnone program)

/-! ## Preparations -/

namespace Memory

variable {memory : Memory} {word : Option Int} {a b : Int}

/-- The memory with the word at the address, if there is one. -/
def putOption (memory : Memory) (a : Int) : Option Int → Memory
  | none => memory
  | some v => memory.put a v

theorem foldl_put_option (memory : Memory) (a : Int) (word : Option Int) :
    (word.map (a, ·)).toList.foldl (fun m o => m.put o.1 o.2) memory = memory.putOption a word := by
  cases word <;> rfl

theorem peek_putOption (ha : memory.Allows a) :
    (memory.putOption a word).peek b =
      if b = a then word.getD (memory.peek b) else memory.peek b := by
  cases word with
  | none => exact (ite_self _).symm
  | some v => exact peek_put ha

theorem size_putOption :
    (memory.putOption a word).size =
      if word.isSome then max memory.size (a.toNat + 1) else memory.size := by
  cases word with
  | none => rfl
  | some v => exact size_put

end Memory

namespace Preparation

/-- The word that a preparation writes at an address, if it writes one there. -/
def wordAt? (preparation : Preparation Int) (a : Int) : Option Int :=
  if a = nounAddress then preparation.noun
  else if a = verbAddress then preparation.verb
  else none

/-- The length of a program once the preparation is written into it. -/
def lengthFor (preparation : Preparation Int) (length : Nat) : Nat :=
  if preparation.verb.isSome then max length 3
  else if preparation.noun.isSome then max length 2
  else length

/-- The memory of a program with the preparation written into it. -/
def prepared (preparation : Preparation Int) (p : List Int) : Memory :=
  ((Memory.ofList p).putOption nounAddress preparation.noun).putOption verbAddress
    preparation.verb

variable {a : Int}

/-- A program can be prepared always, for a preparation writes at small addresses. -/
theorem patch_eq : preparation.patch p = .ok (preparation.prepared p).toList := by
  obtain ⟨inputs, noun, verb⟩ := preparation
  have hadmits : (Memory.ofList p).Admits
      (((noun.map (nounAddress, ·)).toList ++ (verb.map (verbAddress, ·)).toList).map
        Prod.fst) := by
    refine Memory.admits_of_near fun a ha => near_arguments a ?_
    cases noun <;> cases verb <;> simp_all
  refine (Program.patch_of_admits hadmits).trans ?_
  rw [List.foldl_append, Memory.foldl_put_option, Memory.foldl_put_option]
  rfl

theorem size_prepared : (preparation.prepared p).size = preparation.lengthFor p.length := by
  obtain ⟨inputs, noun, verb⟩ := preparation
  rw [prepared, Memory.size_putOption, Memory.size_putOption, Memory.size_ofList]
  cases noun with
  | none => cases verb <;> rfl
  | some noun =>
    cases verb with
    | none => rfl
    | some verb =>
      show max (max p.length 2) 3 = max p.length 3
      omega

theorem peek_prepared : (preparation.prepared p).peek a =
    (preparation.wordAt? a).getD ((Memory.ofList p).peek a) := by
  have hnoun (m : Memory) : m.Allows nounAddress := Memory.allows_of_near (by decide)
  have hverb (m : Memory) : m.Allows verbAddress := Memory.allows_of_near (by decide)
  rw [prepared, Memory.peek_putOption (hverb _), Memory.peek_putOption (hnoun _), wordAt?]
  by_cases hv : a = verbAddress
  · have hn : ¬ a = nounAddress := by
      rw [hv]
      decide
    rw [if_pos hv, if_neg hn, if_neg hn, if_pos hv]
  · rw [if_neg hv, if_neg hv]
    split <;> rfl

/-- The preparation shows in the length and at its addresses only. -/
theorem exists_patch (preparation : Preparation Int) (p : List Int) :
    ∃ q, preparation.patch p = .ok q ∧ q.length = preparation.lengthFor p.length ∧
      ∀ a, (Memory.ofList q).peek a =
        (preparation.wordAt? a).getD ((Memory.ofList p).peek a) :=
  ⟨_, patch_eq, Memory.length_toList.trans size_prepared, fun _ => peek_prepared⟩

/-- A noun and a verb are written as a call with two arguments does it. -/
theorem patch_eq_patched (inputs p : List Int) (noun verb : Int) :
    Preparation.patch ⟨inputs, some noun, some verb⟩ p = .ok (patched p noun verb) :=
  patch_arguments p noun verb

end Preparation

/-! ## Machines after a run -/

namespace Machine

variable {inputs : List Int} {verbose : Bool} {r : Except Interrupt Unit} {exit : Exit}

/-- A machine that has halted has a memory, for it has executed an instruction. -/
theorem size_pos_of_halted (h : m.run fuel = some (.ok (), n)) : 0 < n.memory.size := by
  obtain ⟨k, t, -, -, ht, -⟩ := exists_stateAfter_of_loop h
  have hs := step_of_runRound_ok ht
  obtain ⟨i, hi, -⟩ := step_executed_cases hs nofun
  have hpc := hi.pc_lt_size
  have hsize := t.size_le_size_after
  rw [after_of_ok hs] at hsize
  omega

/-- A machine that was only loaded and run still holds all that it has sent. -/
theorem outputs_of_run (h : (load q inputs verbose).run fuel = some (r, n)) :
    n.outputs.toList = sent (visited runRound fuel (load q inputs verbose)) := by
  have ht := run_keep (P := fun g m => Trades (load q inputs verbose) m (taken g) (sent g))
    (h := []) (fun _ _ ht => trades_after ht) (.refl _) h
  exact ht.outputs

/-- Looking at the first word of a memory does not change it. -/
theorem readFirst_of_pos (h : 0 < m.memory.size) : m.readFirst = (m.memory.peek 0, m) := by
  have hallows : m.memory.Allows 0 := Memory.allows_of_near (by decide)
  rw [readFirst, Memory.read_of_allows hallows]
  show (m.memory.peek 0, { m with memory := m.memory.growTo 1 }) = _
  rw [Memory.growTo_of_le h]

/-- What is left behind is that of the machine as the run left it. -/
theorem remains_eq (h : exit = .code 0 → 0 < m.memory.size) :
    m.remains exit =
      { log := m.journal.lines
        values := (if m.outputs.toList = [] ∧ exit = .code 0 then [m.memory.peek 0]
          else m.outputs.toList).map .number
        summary := m.summary } := by
  by_cases hsilent : m.outputs.toList = [] ∧ exit = .code 0
  · rw [if_pos hsilent, remains, hsilent.1, hsilent.2, readFirst_of_pos (h hsilent.2)]
    rfl
  · rw [if_neg hsilent, remains, if_neg]
    rwa [Bool.and_eq_true, List.isEmpty_iff, decide_eq_true_eq]

theorem summary_of_muted (h : m.muted = n.muted) : m.summary = n.summary :=
  (congrArg Machine.summary h :)

/-- The counters and the size of the memory, as they are written. -/
theorem summary_eq (m : Machine) : m.summary =
    "Steps: " ++ toString m.counters.steps ++ "\nMemory: " ++ toString m.counters.reads ++ "R/" ++
      toString m.counters.writes ++ "W (" ++ toString m.memory.size ++ " cells)\n" ++ "IO: " ++
      toString m.counters.inputs ++ " in / " ++ toString m.counters.outputs ++ " out" := by
  simp only [summary, ← String.append_assoc]
  rfl

end Machine

/-! ## Reports -/

/-- The values that are to be printed after a run that sent some: these, or the word at
address 0 if the machine has halted and sent none. -/
def Outcome.due (outcome : Outcome) (n : Machine) (values : List Int) : List Int :=
  if values = [] ∧ outcome = .progressed .stopped then [n.memory.peek 0] else values

/-- The report tells how a run ended that left a machine and sent some values: the exit
code tells the outcome, and the values that are due are printed. Any counters are those
that the run left, and the size is that of the memory then. -/
structure Report.Shows (report : Report) (stats : Bool) (outcome : Outcome) (n : Machine)
    (values : List Int) : Prop where
  halted : report.exit = .code 0 ↔ outcome = .progressed .stopped
  blocked : report.exit = .code 2 ↔ ∃ a, outcome = .interrupted (.blocked a)
  failed : report.exit = .code 1 ↔ ∃ f, outcome = .interrupted (.failed (.fault f))
  printed : report.output = (outcome.due n values).map toString
  counted : stats = true → ∃ lines, report.errors = lines ++ [
    "Steps: " ++ toString n.counters.steps ++ "\nMemory: " ++ toString n.counters.reads ++ "R/" ++
      toString n.counters.writes ++ "W (" ++ toString n.memory.size ++ " cells)\n" ++ "IO: " ++
      toString n.counters.inputs ++ " in / " ++ toString n.counters.outputs ++ " out"]

/-- The program has crashed at the first of the values that are due which the host cannot
write, and has printed those in front of it. -/
structure Report.BreaksOff (report : Report) (limit : DigitLimit) (due : List Int) : Prop where
  crashed : report.exit = .crash (.tooManyDigits limit.excess)
  printed : report.output = (limit.front due).map toString

theorem Outcome.ofResult_eq_stopped_iff {r : Except Interrupt Unit} :
    Outcome.ofResult r = .progressed .stopped ↔ r = .ok () := by
  cases r with
  | ok => exact ⟨fun _ => rfl, fun _ => rfl⟩
  | error => exact ⟨nofun, nofun⟩

theorem Machine.run_of_tryRun_stopped (h : m.tryRun fuel = some (.progressed .stopped, n)) :
    m.run fuel = some (.ok (), n) := by
  rw [tryRun_eq_map_run] at h
  obtain ⟨⟨r, t⟩, hrun, hr⟩ := Option.map_eq_some_iff.1 h
  obtain ⟨hstopped, rfl⟩ := Prod.mk.inj hr
  obtain rfl : r = .ok () := Outcome.ofResult_eq_stopped_iff.1 hstopped
  exact hrun

/-- The exit code tells the outcomes of a run apart. -/
theorem verdict_cases {r : Except Interrupt Unit}
    (hlimit : Outcome.ofResult r ≠ .interrupted (.failed .memoryLimit)) :
    ∃ code messages, verdict Interrupt.verdict r = (.code code, messages) ∧
      (code = 0 ↔ Outcome.ofResult r = .progressed .stopped) ∧
      (code = 2 ↔ ∃ a, Outcome.ofResult r = .interrupted (.blocked a)) ∧
      (code = 1 ↔ ∃ f, Outcome.ofResult r = .interrupted (.failed (.fault f))) := by
  match r with
  | .ok () => exact ⟨0, [], rfl, by simp [Outcome.ofResult]⟩
  | .error (.blocked a) => exact ⟨2, _, rfl, by simp [Outcome.ofResult]⟩
  | .error (.failed (.fault f)) => exact ⟨1, _, rfl, by simp [Outcome.ofResult]⟩
  | .error (.failed .memoryLimit) => exact absurd rfl hlimit

theorem verdict_mapError (r : Except Interrupt Unit) :
    verdict (WritingError.verdict Interrupt.verdict) (r.mapError .own) =
      verdict Interrupt.verdict r := by
  cases r <;> rfl

namespace Remains

variable {remains : Remains} {due : List Int} {stats : Bool} {code : Nat} {messages : List String}

theorem takeWhile_number (due : List Int) :
    ((due.map Entry.number).takeWhile fun entry => limit.Writes entry.numbers).map Entry.text =
      (limit.front due).map toString := by
  have hone : (fun n : Int => decide (limit.Writes (Entry.number n).numbers)) =
      fun n => decide (limit.Allows (digitCount n)) :=
    funext fun n => decide_eq_decide.2 List.forall_mem_singleton
  rw [List.takeWhile_map, List.map_map]
  exact congrArg (List.map toString) (congrArg (due.takeWhile ·) hone)

theorem flatMap_numbers (due : List Int) : (due.map Entry.number).flatMap Entry.numbers = due := by
  rw [List.flatMap_map]
  exact List.flatMap_singleton' due

theorem report_of_writes (h : remains.values = due.map .number) (hw : limit.Writes due) :
    remains.report limit stats (.code code, messages) =
      { exit := .code code, output := due.map toString
        errors := remains.log ++ messages ++ if stats then [remains.summary] else [] } := by
  simp only [report, h, flatMap_numbers, if_pos hw, takeWhile_number,
    DigitLimit.front_of_writes hw]

theorem report_of_not_writes (h : remains.values = due.map .number) (hw : ¬ limit.Writes due) :
    (remains.report limit stats (.code code, messages)).BreaksOff limit due := by
  simp only [report, h, flatMap_numbers, if_neg hw, takeWhile_number]
  exact ⟨rfl, rfl⟩

end Remains

/-- The host can write whatever a run of the prepared program traces. -/
def Traces (limit : DigitLimit) (fuel : Nat) (settings : Settings) (inputs q : List Int) : Prop :=
  ∀ t ∈ visited Machine.runRound fuel (Machine.load q inputs settings.trace), t.Announces limit

section Run

variable {settings : Settings} {inputs : List Int}

theorem traces_of_none (h : limit = none) : Traces limit fuel settings inputs q := fun t _ => by
  rw [h]
  exact t.announces_none

/-- A machine that does not trace has nothing to write. -/
theorem traces_of_not_trace (h : settings.trace = false) :
    Traces limit fuel settings inputs q := by
  have hquiet : ∀ t ∈ visited Machine.runRound fuel (Machine.load q inputs settings.trace),
      t.journal.verbose = false := by
    refine forall_mem_visited (P := fun t : Machine => t.journal.verbose = false)
      (fun t u ht hu => ?_) h
    rw [← Machine.after_of_ok (Machine.step_of_runRound hu), Machine.verbose_after, ht]
  exact fun t ht => Machine.announces_of_not_verbose (hquiet t ht)

/-- The report of a run that does not exceed the host's memory limit tells how it ended, or
breaks off. What the machine has traced meanwhile plays no part. -/
theorem exists_report (ht : Traces limit fuel settings inputs q)
    (h : (Machine.load q inputs false).tryRun fuel = some (outcome, n))
    (hlimit : outcome ≠ .interrupted (.failed .memoryLimit)) :
    ∃ report values, reportRun limit fuel settings inputs q = some report ∧
      values = Machine.sent (visited Machine.runRound fuel (Machine.load q inputs false)) ∧
      (¬ limit.Writes (outcome.due n values) → report.BreaksOff limit (outcome.due n values)) ∧
      (limit.Writes (outcome.due n values) → report.Shows settings.stats outcome n values) := by
  rw [Machine.tryRun_eq_map_run] at h
  obtain ⟨⟨r, n⟩, hrun, hr⟩ := Option.map_eq_some_iff.1 h
  cases hr
  obtain ⟨code, messages, hverdict, hhalted, hblocked, hfailed⟩ := verdict_cases hlimit
  have hmuted : (Machine.load q inputs false).muted =
    (Machine.load q inputs settings.trace).muted := rfl
  obtain ⟨m, htraced, hm⟩ := Machine.exists_run_of_muted hmuted hrun
  have hon : (Machine.load q inputs settings.trace).runOn limit fuel =
      some (r.mapError .own, m) := by
    rw [Machine.runOn_of_announces ht, htraced]
    rfl
  have hmemory : m.memory = n.memory := (congrArg Machine.memory hm :)
  have houtputs : m.outputs = n.outputs := (congrArg Machine.outputs hm :)
  have hexit : ∀ c, Exit.code code = .code c ↔ code = c := fun c =>
    ⟨fun h => Exit.code.inj h, congrArg Exit.code⟩
  have hpos : Exit.code code = .code 0 → 0 < m.memory.size := fun h => by
    obtain rfl := Outcome.ofResult_eq_stopped_iff.1 (hhalted.1 ((hexit 0).1 h))
    exact hmemory ▸ Machine.size_pos_of_halted hrun
  have hremains := Machine.remains_eq hpos
  simp only [hmemory, houtputs, hexit, hhalted] at hremains
  have hvalues : (m.remains (.code code)).values =
      ((Outcome.ofResult r).due n n.outputs.toList).map .number := by
    rw [hremains]
    rfl
  refine ⟨_, n.outputs.toList, Option.map_eq_some_iff.2 ⟨_, hon, rfl⟩,
    Machine.outputs_of_run hrun, fun hw => ?_, fun hw => ?_⟩
  · simp only [verdict_mapError, hverdict]
    exact Remains.report_of_not_writes hvalues hw
  · simp only [verdict_mapError, hverdict, Remains.report_of_writes hvalues hw]
    refine ⟨(hexit 0).trans hhalted, (hexit 2).trans hblocked, (hexit 1).trans hfailed, rfl,
      fun hstats => ⟨m.journal.lines ++ messages, ?_⟩⟩
    rw [hremains, hstats, if_pos rfl, Machine.summary_of_muted hm, Machine.summary_eq]

/-- A run has a report iff it ends. -/
theorem reportRun_eq_none_iff (ht : Traces limit fuel settings inputs q) :
    reportRun limit fuel settings inputs q = none ↔
      (Machine.load q inputs false).tryRun fuel = none := by
  have hmuted : (Machine.load q inputs settings.trace).muted =
    (Machine.load q inputs false).muted := rfl
  rw [reportRun, Option.map_eq_none_iff, Machine.runOn_of_announces ht, Option.map_eq_none_iff,
    Machine.tryRun_eq_map_run, Option.map_eq_none_iff]
  rcases answers_of_map_eq (Machine.run_muted fuel hmuted) with ⟨hm, ha⟩ | ⟨r, b, c, hm, ha, -⟩
  · rw [hm, ha]
  · rw [hm, ha]
    exact ⟨nofun, nofun⟩

/-- At an instruction that it cannot trace the program crashes, and nothing is printed. -/
theorem exists_report_of_not_traces (h : ¬ Traces limit fuel settings inputs q) :
    ∃ report, reportRun limit fuel settings inputs q = some report ∧
      report.exit = .crash (.tooManyDigits limit.excess) ∧ report.output = [] := by
  obtain ⟨before, t, after, hv, hbefore, ht⟩ := exists_first_of_not_forall h
  have hon := Machine.runOn_of_not_announces hv hbefore ht
  exact ⟨_, Option.map_eq_some_iff.2 ⟨_, hon, rfl⟩, rfl, rfl⟩

end Run

/-! ## Responses -/

theorem Preparation.toInt_number (preparation : Preparation Int) :
    (preparation.map Entry.number).map Entry.toInt = preparation := by
  have hid : Entry.toInt ∘ Entry.number = id := rfl
  simp only [Preparation.map, List.map_map, Option.map_map, hid, List.map_id, Option.map_id, id_eq]

/-- A preparation with numbers only holds no empty list. -/
theorem Preparation.not_isMixed_number (preparation : Preparation Int) :
    ¬ (preparation.map Entry.number).IsMixed := by
  have hword (word : Option Int) : word.map Entry.number ≠ some .emptyList := by
    cases word <;> exact nofun
  have hcells : (preparation.map Entry.number).emptyCells = [] := by
    simp only [emptyCells, map, hword, if_false, List.append_nil]
  rintro (hinput | hcell)
  · obtain ⟨n, -, hn⟩ := List.mem_map.1 hinput
    cases hn
  · exact hcell hcells

/-- A program file is run as its program, once that is prepared. -/
theorem respond_eq_reportRun (fuel : Nat) (hcommand : invocation.command = .run)
    (hentries : invocation.settings.entries = preparation.map .number)
    (hp : Parses limit bytes p) (hq : preparation.patch p = .ok q) :
    invocation.respond limit fuel (.file bytes) =
      (reportRun limit fuel invocation.settings preparation.inputs q).map .report := by
  simp only [Invocation.respond, loadProgram_of_parses hp, hcommand, hentries,
    preparation.toInt_number, hq, if_neg preparation.not_isMixed_number]

/-- If the program has halted then what is printed is what a call returns. -/
theorem Report.Shows.answers {report : Report} {stats : Bool} {values : List Int}
    (hshows : report.Shows stats outcome n values) (hq : preparation.patch p = .ok q)
    (h : (Machine.load q preparation.inputs false).tryRun fuel = some (outcome, n))
    (hvalues : values =
      Machine.sent (visited Machine.runRound fuel (Machine.load q preparation.inputs false)))
    (hexit : report.exit = .code 0) :
    Answers (call fuel q preparation.inputs) (.ok values) ∧
    ∀ noun verb, preparation = ⟨[], some noun, some verb⟩ → values = [] → ∃ value,
      Answers (callWith fuel p noun verb) (.ok value) ∧ report.output = [toString value] := by
  have hstopped := hshows.halted.1 hexit
  rw [hstopped] at h
  have hrun := Machine.run_of_tryRun_stopped h
  constructor
  · rw [answers_call_iff false, hrun, hvalues, ← Machine.outputs_of_run hrun]
    rfl
  · rintro noun verb rfl hnone
    have hprinted := hshows.printed
    rw [Outcome.due, if_pos ⟨hnone, hstopped⟩] at hprinted
    obtain rfl := Except.ok.inj ((Preparation.patch_eq_patched [] p noun verb).symm.trans hq)
    refine ⟨_, (answers_callWith_iff false).2 ?_, hprinted⟩
    rw [hrun]
    rfl

-- A host that writes three digits: of two values the second is a product with six.
example : (reportRun (some 3) 4 (runSettings "product.txt" ⟨[], none, none⟩ true) []
      [104, 7, 102, 999, 0, 9, 4, 9, 99, 0]).map (fun report => (report.exit, report.output)) =
    some (.crash (.tooManyDigits ⟨3, none⟩), ["7"]) := by decide +kernel

end Wordcode
