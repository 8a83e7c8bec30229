import Mathlib.Data.List.Chain
import Wordcode.Proofs.Listing.Walk
import Wordcode.Proofs.Machine.Extent
import Wordcode.Proofs.Machine.Muted
import Wordcode.Proofs.Machine.Tracing

/-!
# Traces

A machine that traces reports of each step the instruction that it is about to
execute, that it begins to wait, and the fault that it meets (`reports`,
`events_after`). The instruction is reported as a listing of the memory shows it at
the program counter just before the step (`Tells`). A host that limits digits and
cannot list it there fails in the step (`disassemble_of_not_announces`).

The journal of such a machine is therefore settled by its history
(`tracing_faithful`). A machine that begins to wait goes on waiting until it has
executed an instruction, and one that meets a fault has ended; so neither is
reported twice (`countP_isBlocked_le`, `countP_isFaulted_le`).
-/

namespace Wordcode

namespace Journal

variable {journal : Journal} {event : Event}

theorem events_note (hv : journal.verbose = true) :
    (journal.note event).events.toList = journal.events.toList ++ [event] := by
  rw [note, if_pos (.inl hv)]
  exact Array.toList_push

end Journal

/-- The event tells that a machine began to wait. -/
def Event.isBlocked : Event → Bool
  | .blocked _ => true
  | _ => false

/-- The event tells that a machine met a fault. -/
def Event.isFaulted : Event → Bool
  | .faulted _ => true
  | _ => false

namespace Machine

variable {m n : Machine} {i : Instruction} {e : Effect} {f : Failure} {s : Status}
  {h : List Machine}

instance : Decidable m.Ended := inferInstanceAs (Decidable (_ ∨ _))

/-- The instruction that a step announces. -/
def announced (m : Machine) : List Event :=
  match m.next? with
  | some i => [.executing m.pc i (literalsAt m.memory m.pc i.opcode.arity)]
  | none => []

/-- What a step reports that begins to wait. -/
def delayed (m : Machine) : List Event :=
  if m.Starves ∧ m.status ≠ .waiting then [.blocked m.pc] else []

/-- The fault that is reported of a result. -/
def blamed : EStateM.Result Failure Machine Status → List Event
  | .error (.fault f) _ => [.faulted f]
  | _ => []

/-- What a step of a machine that traces reports. -/
def reports (m : Machine) : List Event :=
  if m.Ended then [] else m.announced ++ (m.delayed ++ blamed (step m))

/-! ## The journal after a step -/

@[simp] theorem journal_taking : (m.taking e).journal = m.journal := by
  unfold taking
  split <;> rfl

@[simp] theorem journal_writing : (m.writing e).journal = m.journal := by
  unfold writing
  split <;> rfl

@[simp] theorem journal_performed : (m.performed e).journal = m.journal := by
  simp [performed, settling, touched]

theorem events_fetched (hv : m.journal.verbose = true) (h : m.Meets i) :
    (m.fetched i).journal.events.toList = m.journal.events.toList ++ m.announced := by
  rw [announced, h.next?_eq]
  exact Journal.events_note hv

theorem events_failing {journal : Journal} (hj : n.journal = journal)
    (hv : journal.verbose = true) :
    (left (n.failing f)).journal.events.toList =
      journal.events.toList ++ blamed (n.failing f) := by
  subst hj
  cases f with
  | fault f => exact Journal.events_note hv
  | memoryLimit => exact (List.append_nil _).symm

theorem events_waiting (hv : m.journal.verbose = true) :
    m.waiting.journal.events.toList =
      m.journal.events.toList ++ if m.status = .waiting then [] else [.blocked m.pc] := by
  unfold waiting
  split
  · exact (List.append_nil _).symm
  · exact Journal.events_note hv

theorem next?_eq_none (h : ∀ i, ¬ m.Meets i) : m.next? = none :=
  Option.eq_none_iff_forall_ne_some.2 fun i hi => h i (next?_eq_some_iff.1 hi)

theorem Meets.not_ended (h : m.Meets i) : ¬ m.Ended := by
  rintro (hs | hf)
  · exact h.running hs
  · exact hf h.sound

theorem Starves.not_ended (h : m.Starves) : ¬ m.Ended := by
  obtain ⟨_, h, -⟩ := h
  exact h.not_ended

theorem delayed_of_not_starves (h : ¬ m.Starves) : m.delayed = [] := if_neg fun hs => h hs.1

/-- A step that meets no instruction reports a fault at most. -/
theorem reports_of_not_meets (hm : ¬ m.Ended) (h : ∀ i, ¬ m.Meets i) :
    m.reports = blamed (step m) := by
  have hs : ¬ m.Starves := fun ⟨_, hs, _⟩ => h _ hs
  rw [reports, if_neg hm, announced, next?_eq_none h, delayed_of_not_starves hs]
  rfl

/-- A step that has its input, if it needs one, is not delayed. -/
theorem reports_of_fed (h : m.Meets i) (hi : m.Fed i) :
    m.reports = m.announced ++ blamed (step m) := by
  have hs : ¬ m.Starves := fun ⟨d, hd, hq⟩ => by
    cases h.next?_eq.symm.trans hd.next?_eq
    exact hi d rfl hq
  rw [reports, if_neg h.not_ended, delayed_of_not_starves hs, List.nil_append]

theorem not_ended_of_running (hf : m.fault = none) (hs : m.IsRunning) : ¬ m.Ended := by
  rintro (h | h)
  · exact hs h
  · exact h hf

/-- A step of a machine that traces adds its reports to the journal. -/
theorem events_after (hv : m.journal.verbose = true) :
    m.after.journal.events.toList = m.journal.events.toList ++ m.reports := by
  have hnone (hm : m.Ended) (ha : m.after = m) :
      m.after.journal.events.toList = m.journal.events.toList ++ m.reports := by
    rw [ha, reports, if_pos hm, List.append_nil]
  have hfetched (i : Instruction) : (m.fetched i).journal.verbose = true :=
    (Journal.verbose_note ..).trans hv
  have hr := m.stepped
  generalize hs : step m = r at hr
  have hafter : m.after = left r := by rw [after, hs]
  cases hr with
  | faulted hf => exact hnone (.inr fun hnil => by cases hf.symm.trans hnil) hafter
  | halted hf hst => exact hnone (.inl hst) hafter
  | unreached hf hst ha =>
    have hi : ∀ i, ¬ m.Meets i := fun i h => ha h.reached
    rw [hafter, reports_of_not_meets (not_ended_of_running hf hst) hi, hs]
    exact events_failing rfl hv
  | undecoded hf hst ha hd =>
    have hi : ∀ i, ¬ m.Meets i := fun i h => by cases hd.symm.trans h.decoded
    rw [hafter, reports_of_not_meets (not_ended_of_running hf hst) hi, hs]
    exact events_failing rfl hv
  | @starved d h hi =>
    have hreports : m.reports =
        m.announced ++ if m.status = .waiting then [] else [.blocked m.pc] := by
      have hb : blamed (.ok .waiting (m.fetched (.input d)).waiting) = [] := rfl
      have hstarves : m.Starves := ⟨d, h, hi⟩
      rw [reports, if_neg h.not_ended, hs, hb, List.append_nil, delayed]
      simp only [hstarves, true_and, ne_eq, ite_not]
    rw [hafter, hreports, ← List.append_assoc, ← events_fetched hv h]
    exact events_waiting (hfetched _)
  | unread h hi =>
    rw [hafter, reports_of_fed h hi, hs, ← List.append_assoc, ← events_fetched hv h]
    exact events_failing journal_taking (hfetched _)
  | unwritten h hi =>
    rw [hafter, reports_of_fed h hi, hs, ← List.append_assoc, ← events_fetched hv h]
    exact events_failing journal_taking (hfetched _)
  | executed h hi =>
    rw [hafter, reports_of_fed h hi, hs, ← List.append_assoc, ← events_fetched hv h]
    show ((m.fetched _).performed _).journal.events.toList = _
    rw [journal_performed]
    exact (List.append_nil _).symm

/-! ## What the reports tell -/

/-- What there is to report of a step of `m`, seen from the machine that it finds. -/
structure Tells (m : Machine) (events : List Event) : Prop where
  /-- Nothing is reported of a machine that has ended. -/
  ended : m.Ended → events = []
  /-- Where no instruction is met, only the fault is. The word may also be out of
  the host's reach, and then nothing is. -/
  unmet : ¬ m.Ended → (∀ i, ¬ m.Meets i) →
    (∃ f n, step m = .error (.fault f) n ∧ events = [.faulted f]) ∨
    (∃ n, step m = .error .memoryLimit n ∧ Memory.growthLimit < m.pc + 1 - m.memory.size ∧
      events = [])
  /-- An instruction is reported as a listing shows it, then that the machine begins
  to wait, then the fault. -/
  met : ∀ i, m.Meets i → ∃ (line : Listing.Line) (first : Event),
    disassemble none m.memory.cells m.pc (some 1) = .ok #[line] ∧ line.address = m.pc ∧
    first.render =
      Event.line .debug Event.machineOrigin (Event.executionText m.pc line.content.text) ∧
    events = first :: ((if m.Starves ∧ m.status ≠ .waiting then [.blocked m.pc] else []) ++
      match step m with
      | .error (.fault f) _ => [.faulted f]
      | _ => [])
  /-- How it is said that the machine begins to wait. -/
  waits : (Event.blocked m.pc).render =
    Event.line .debug Event.machineOrigin ("blocked on input at " ++ toString m.pc)
  /-- How a fault is told. -/
  blames : ∀ f : Fault, (Event.faulted f).render =
    Event.line .warning Event.machineOrigin ("machine fault: " ++ f.message)

/-- The one line that is listed where an instruction is met, if it can be written. -/
theorem disassemble_of_meets (limit : DigitLimit) (h : m.Meets i) :
    disassemble limit m.memory.cells m.pc (some 1) =
      if limit.Writes (literalsAt m.memory m.pc i.opcode.arity) then
        .ok #[⟨m.pc, .instruction i (literalsAt m.memory m.pc i.opcode.arity)⟩]
      else .error (.tooManyDigits limit.excess) := by
  obtain ⟨hpc, hlt⟩ := h.pc_lt_size
  have hshown : Listing.shown m.memory.cells m.pc =
      .instruction i (literalsAt m.memory m.pc i.opcode.arity) := by
    rw [Listing.shown_cells hpc, h.decoded]
  rw [Listing.disassemble_one limit hpc hlt, hshown]
  rfl

/-- What a machine cannot announce cannot be listed either. -/
theorem disassemble_of_not_announces {limit : DigitLimit} (h : ¬ m.Announces limit) :
    disassemble limit m.memory.cells m.pc (some 1) = .error (.tooManyDigits limit.excess) := by
  obtain ⟨-, i, hi, hwrites⟩ := exists_meets_of_not_announces h
  rw [disassemble_of_meets limit hi, if_neg hwrites]

theorem tells_reports (m : Machine) : Tells m m.reports where
  ended hm := if_pos hm
  unmet hm hi := by
    rw [reports_of_not_meets hm hi]
    have hr := m.stepped
    generalize step m = r at hr ⊢
    cases hr with
    | faulted hf => exact absurd (.inr fun hnil => by cases hf.symm.trans hnil) hm
    | halted _ hs => exact absurd (.inl hs) hm
    | unreached hf hs ha =>
      by_cases hneg : m.pc < 0
      · simp only [Memory.refusal, if_pos hneg, Failure.ofAccess, failing]
        exact .inl ⟨_, _, rfl, rfl⟩
      · have hfar : Memory.growthLimit < m.pc + 1 - m.memory.size :=
          Int.not_le.1 fun hle => ha ⟨Int.not_lt.1 hneg, hle⟩
        simp only [Memory.refusal, if_neg hneg, Failure.ofAccess, failing]
        exact .inr ⟨_, rfl, hfar, rfl⟩
    | undecoded => exact .inl ⟨_, _, rfl, rfl⟩
    | starved h => exact absurd h (hi _)
    | unread h => exact absurd h (hi _)
    | unwritten h => exact absurd h (hi _)
    | executed h => exact absurd h (hi _)
  met i h := by
    refine ⟨⟨m.pc, .instruction i (literalsAt m.memory m.pc i.opcode.arity)⟩,
      .executing m.pc i (literalsAt m.memory m.pc i.opcode.arity), ?_, rfl, rfl, ?_⟩
    · rw [disassemble_of_meets none h, if_pos (DigitLimit.writes_none _)]
    · rw [reports, if_neg h.not_ended, announced, h.next?_eq]
      rfl
  waits := rfl
  blames _ := rfl

/-! ## What is reported once -/

/-- `n` is what a step of `m` leaves, with other values queued. -/
def Follows (m n : Machine) : Prop := ∃ p q, n = { m.after with inputs := p, outputs := q }

/-- The machines of a history follow one another, and `m` the last of them. -/
structure Leads (h : List Machine) (m : Machine) : Prop where
  chain : h.IsChain Follows
  last : ∀ t ∈ h.getLast?, Follows t m

theorem Leads.after (hm : Leads h m) : Leads (h ++ [m]) m.after where
  chain := by
    refine hm.chain.append (List.isChain_singleton m) fun t ht y hy => ?_
    cases hy
    exact hm.last t ht
  last t ht := by
    rw [List.getLast?_append, List.getLast?_singleton, Option.some_or] at ht
    cases ht
    exact ⟨_, _, rfl⟩

theorem Leads.of_queues (hm : Leads h m) (p q : Queue) :
    Leads h { m with inputs := p, outputs := q } where
  chain := hm.chain
  last t ht := by
    obtain ⟨p', q', rfl⟩ := hm.last t ht
    exact ⟨p, q, rfl⟩

theorem leads_history {fuel : Nat} {requests : List Request} {replies : List Reply}
    (hr : m.respondAll fuel requests = some (replies, n)) : Leads (m.history fuel requests) n := by
  have hm : Leads [] m := ⟨.nil, fun t ht => absurd ht (Option.not_mem_none t)⟩
  exact respondAll_steps (fun _ _ => Leads.after) (fun _ _ p q hm => hm.of_queues p q) hm hr

theorem Follows.status (h : Follows m n) : n.status = m.after.status := by
  obtain ⟨p, q, rfl⟩ := h
  rfl

theorem Follows.ended (h : Follows m n) (hm : m.after.Ended) : n.Ended := by
  obtain ⟨p, q, rfl⟩ := h
  exact hm

theorem countP_isBlocked_reports : m.reports.countP Event.isBlocked =
    if m.Starves ∧ m.status ≠ .waiting then 1 else 0 := by
  have ha : m.announced.countP Event.isBlocked = 0 := by
    unfold announced
    split <;> rfl
  have hb : (blamed (step m)).countP Event.isBlocked = 0 := by
    unfold blamed
    split <;> rfl
  have hd : m.delayed.countP Event.isBlocked =
      if m.Starves ∧ m.status ≠ .waiting then 1 else 0 := by
    unfold delayed
    split <;> rfl
  unfold reports
  split
  · next hm => rw [if_neg fun hs => hs.1.not_ended hm, List.countP_nil]
  · rw [List.countP_append, List.countP_append, ha, hb, hd, Nat.zero_add, Nat.add_zero]

/-- Unless it executes an instruction, a machine that waits goes on waiting. -/
theorem status_after_of_waiting (hq : ∀ s n, step m = .ok s n → s = .waiting)
    (hw : m.status = .waiting ∨ m.Starves) : m.after.status = .waiting := by
  cases hs : step m with
  | ok s n =>
    rw [after_of_ok hs, status_eq_of_step hs]
    exact hq s n hs
  | error f n =>
    have hst : ¬ m.Starves := fun hst => by
      obtain ⟨t, ht⟩ := starves_iff.1 hst
      cases hs.symm.trans ht
    rw [after_of_error hs, status_of_error hs]
    exact hw.resolve_right hst

/-- As long as no instruction is executed, waiting is reported once, and not at all
of a machine that waits already. -/
theorem countP_isBlocked_le (hh : h.IsChain Follows)
    (hq : ∀ t ∈ h, ∀ s n, step t = .ok s n → s = .waiting) :
    (h.flatMap reports).countP Event.isBlocked ≤ 1 ∧
    ((∀ t ∈ h.head?, t.status = .waiting) →
      (h.flatMap reports).countP Event.isBlocked = 0) := by
  induction h with
  | nil => exact ⟨Nat.zero_le 1, fun _ => rfl⟩
  | cons t h ih =>
    obtain ⟨hnext, hh⟩ := List.isChain_cons.1 hh
    obtain ⟨hle, hzero⟩ := ih hh fun u hu => hq u (List.mem_cons_of_mem t hu)
    have hwait (hw : t.status = .waiting ∨ t.Starves) :
        (h.flatMap reports).countP Event.isBlocked = 0 := by
      refine hzero fun u hu => ?_
      rw [(hnext u hu).status]
      exact status_after_of_waiting (hq t List.mem_cons_self) hw
    rw [List.flatMap_cons, List.countP_append, countP_isBlocked_reports]
    constructor
    · split
      · next hs => rw [hwait (.inr hs.1)]
      · rwa [Nat.zero_add]
    · intro hw
      have hw' : t.status = .waiting := hw t rfl
      rw [if_neg fun hs => hs.2 hw', hwait (.inl hw')]

theorem ended_after_of_ended (hm : m.Ended) : m.after.Ended := by
  rwa [after_of_error (step_of_ended hm)]

/-- A step that reports a fault has recorded it. -/
theorem ended_after_of_blamed (hm : ¬ m.Ended) (hb : blamed (step m) ≠ []) : m.after.Ended := by
  obtain ⟨hs, hf⟩ := not_or.1 hm
  unfold blamed at hb
  split at hb
  · next f n hstep =>
    obtain ⟨u, -, -, rfl⟩ := exists_failing_of_error (Decidable.not_not.1 hf) hs hstep
    rw [after_of_error hstep]
    exact .inr nofun
  · exact absurd rfl hb

theorem countP_isFaulted_reports (hm : ¬ m.Ended) :
    m.reports.countP Event.isFaulted = (blamed (step m)).length := by
  have ha : m.announced.countP Event.isFaulted = 0 := by
    unfold announced
    split <;> rfl
  have hd : m.delayed.countP Event.isFaulted = 0 := by
    unfold delayed
    split <;> rfl
  have hb : (blamed (step m)).countP Event.isFaulted = (blamed (step m)).length := by
    unfold blamed
    split <;> rfl
  rw [reports, if_neg hm, List.countP_append, List.countP_append, ha, hb, hd, Nat.zero_add,
    Nat.zero_add]

theorem length_blamed_le (r : EStateM.Result Failure Machine Status) : (blamed r).length ≤ 1 := by
  unfold blamed
  split
  · exact Nat.le_refl 1
  · exact Nat.zero_le 1

/-- A fault is reported once, and none is of a machine that has ended. -/
theorem countP_isFaulted_le (hh : h.IsChain Follows) :
    (h.flatMap reports).countP Event.isFaulted ≤ 1 ∧
    ((∀ t ∈ h.head?, t.Ended) → (h.flatMap reports).countP Event.isFaulted = 0) := by
  induction h with
  | nil => exact ⟨Nat.zero_le 1, fun _ => rfl⟩
  | cons t h ih =>
    obtain ⟨hnext, hh⟩ := List.isChain_cons.1 hh
    obtain ⟨hle, hzero⟩ := ih hh
    have hrest (ht : t.after.Ended) : (h.flatMap reports).countP Event.isFaulted = 0 :=
      hzero fun u hu => (hnext u hu).ended ht
    rw [List.flatMap_cons, List.countP_append]
    by_cases ht : t.Ended
    · have hnone : t.reports = [] := if_pos ht
      rw [hnone, hrest (ended_after_of_ended ht)]
      exact ⟨Nat.zero_le 1, fun _ => rfl⟩
    · rw [countP_isFaulted_reports ht]
      refine ⟨?_, fun hended => absurd (hended t rfl) ht⟩
      by_cases hb : blamed (step t) = []
      · rwa [hb, List.length_nil, Nat.zero_add]
      · rw [hrest (ended_after_of_blamed ht hb)]
        exact length_blamed_le _

/-! ## The whole journal -/

/-- A machine goes on tracing. -/
theorem verbose_after (m : Machine) : m.after.journal.verbose = m.journal.verbose := by
  cases hs : step m with
  | ok s n =>
    rw [after_of_ok hs]
    rcases step_ok_cases hs with ⟨d, -, -, -, rfl⟩ | ⟨i, -, -, -, rfl⟩
    · unfold waiting
      split
      · exact Journal.verbose_note ..
      · exact (Journal.verbose_note ..).trans (Journal.verbose_note ..)
    · rw [journal_performed]
      exact Journal.verbose_note ..
  | error f n =>
    by_cases hm : m.Ended
    · rw [after_of_error (step_of_ended hm)]
    · obtain ⟨hst, hf⟩ := not_or.1 hm
      obtain ⟨u, hu, -, rfl⟩ := exists_failing_of_error (Decidable.not_not.1 hf) hst hs
      rw [after_of_error hs]
      exact hu.failing.verbose

/-- On the way from `m` to `n`, by the steps of a history, the journal has grown by what
was reported of them. -/
structure Journals (m : Machine) (h : List Machine) (n : Machine) : Prop where
  verbose : n.journal.verbose = true
  events : n.journal.events.toList = m.journal.events.toList ++ h.flatMap reports

theorem Journals.after (hn : Journals m h n) :
    Journals m (h ++ [n]) n.after where
  verbose := (verbose_after n).trans hn.verbose
  events := by
    rw [events_after hn.verbose, hn.events, List.flatMap_append, List.flatMap_singleton,
      List.append_assoc]

theorem journals_history {fuel : Nat} {requests : List Request} {replies : List Reply}
    (hv : m.journal.verbose = true) (hr : m.respondAll fuel requests = some (replies, n)) :
    Journals m (m.history fuel requests) n := by
  have hm : Journals m [] m := ⟨hv, (List.append_nil _).symm⟩
  exact respondAll_steps (P := Journals m) (fun _ _ => Journals.after)
    (fun _ _ _ _ hn => ⟨hn.verbose, hn.events⟩) hm hr

theorem exists_respondAll_of_steps (fuel : Nat) (m : Machine) {requests : List Request}
    (hr : ∀ request ∈ requests, request = .step ∨ ∃ values, request = .addInputs values) :
    ∃ replies n, m.respondAll fuel requests = some (replies, n) := by
  induction requests generalizing m with
  | nil => exact ⟨[], m, rfl⟩
  | cons request requests ih =>
    have hone : ∃ p, m.respond fuel request = some p := by
      rcases hr request List.mem_cons_self with rfl | ⟨values, rfl⟩
      · rw [respond]
        split <;> exact ⟨_, rfl⟩
      · exact ⟨_, rfl⟩
    obtain ⟨⟨reply, t⟩, ht⟩ := hone
    obtain ⟨replies, n, hn⟩ := ih t fun r hmem => hr r (List.mem_cons_of_mem _ hmem)
    exact ⟨reply :: replies, n, by rw [respondAll_of_respond ht, hn]; rfl⟩

-- The machine waits through two steps, and then has its input, which it cannot store.
example : ((load [3, -1] [] true).respondAll 0 [.step, .step, .addInputs [5], .step, .step]).map
    (·.2.journal.lines) = some [
      "DEBUG intcode.machine:      0  IN   [-1]",
      "DEBUG intcode.machine: blocked on input at 0",
      "DEBUG intcode.machine:      0  IN   [-1]",
      "DEBUG intcode.machine:      0  IN   [-1]",
      "WARNING intcode.machine: machine fault: Access to negative address -1"] := by
  decide +kernel

end Machine

end Wordcode
