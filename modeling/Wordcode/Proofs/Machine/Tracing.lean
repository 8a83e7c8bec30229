import Wordcode.Machine.Tracing
import Wordcode.Proofs.Machine.Failure
import Wordcode.Proofs.Machine.Request

/-!
# Steps that are announced

On a host that limits digits a step fails where the instruction that it meets cannot be
announced (`Announces`). Then it has fetched the instruction and done nothing else
(`stepOn_of_not_announces`). Every other step is one as on any host
(`stepOn_of_announces`), and a run of such steps, or a dialogue about them, is one as on
any host too (`runOn_of_announces`, `heedAll_of_announces`).
-/

namespace Wordcode

/-- A call that gets a machine on: it makes a step, or has more inputs. -/
inductive Nudge where
  | step
  | addInputs (values : List Int)

/-- The request that a nudge makes. -/
def Nudge.request : Nudge → Request
  | .step => .step
  | .addInputs values => .addInputs values

namespace Machine

/-- The reply to a nudge on a host with the limit, unless a number cannot be written, and
the machine afterwards. -/
def heed (limit : DigitLimit) (m : Machine) : Nudge → Except TooManyDigits Reply × Machine
  | .step =>
    match stepOn limit m with
    | .ok status n => (.ok (.stepped (.ok status)), n)
    | .error (.own failure) n => (.ok (.stepped (.error failure)), n)
    | .error (.tooManyDigits error) n => (.error error, n)
  | .addInputs values => (.ok .queued, m.addInputs values)

/-- The replies to nudges that are made one after another. -/
def heedAll (limit : DigitLimit) (m : Machine) :
    List Nudge → List (Except TooManyDigits Reply) × Machine
  | [] => ([], m)
  | nudge :: nudges =>
    let (reply, n) := m.heed limit nudge
    let (replies, n) := n.heedAll limit nudges
    (reply :: replies, n)

/-- Where the machine traces, the host can write the instruction that the next step meets. -/
def Announces (limit : DigitLimit) (m : Machine) : Prop :=
  m.journal.verbose = true →
    ∀ i ∈ m.next?, limit.Writes (literalsAt m.memory m.pc i.opcode.arity)

instance (limit : DigitLimit) (m : Machine) : Decidable (m.Announces limit) :=
  inferInstanceAs (Decidable (_ → _))

variable {limit : DigitLimit} {fuel : Nat} {m n t : Machine} {i : Instruction}

theorem announces_none (m : Machine) : m.Announces none := fun _ _ _ => DigitLimit.writes_none _

theorem announces_of_not_verbose (h : m.journal.verbose = false) : m.Announces limit :=
  fun hv => by cases h.symm.trans hv

/-- A machine that cannot announce meets an instruction that it would announce. -/
theorem exists_meets_of_not_announces (h : ¬ m.Announces limit) :
    m.journal.verbose = true ∧ ∃ i, m.Meets i ∧
      ¬ limit.Writes (literalsAt m.memory m.pc i.opcode.arity) := by
  simp only [Announces, Classical.not_imp, Classical.not_forall] at h
  obtain ⟨hv, i, hi, hwrites⟩ := h
  exact ⟨hv, i, next?_eq_some_iff.1 hi, hwrites⟩

/-! ## Steps -/

/-- The result of a computation that writes no numbers. -/
def ownResult {α : Type} :
    EStateM.Result Failure Machine α → EStateM.Result (WritingError Failure) Machine α
  | .ok a m => .ok a m
  | .error failure m => .error (.own failure) m

theorem unlimited_eq {α : Type} (action : StepM α) (m : Machine) :
    unlimited action m = ownResult (action m) := by
  unfold unlimited ownResult
  cases action m <;> rfl

theorem unlimited_of_ok {α : Type} {action : StepM α} {a : α} (h : action m = .ok a n) :
    unlimited action m = .ok a n := by rw [unlimited_eq, h, ownResult]

theorem unlimited_of_error {α : Type} {action : StepM α} {failure : Failure}
    (h : action m = .error failure n) : unlimited action m = .error (.own failure) n := by
  rw [unlimited_eq, h, ownResult]

theorem cycleOn_eq : cycleOn limit m = (do
    let word ← unlimited (readCell m.pc)
    match decodeAt word m.pc with
    | .error fault => throw (.own (.fault fault))
    | .ok i =>
      announceOn limit m.pc i
      unlimited (execute m.pc i) : TracingM Unit) m := rfl

/-- Once an instruction is fetched, it is announced. -/
theorem cycleOn_of_meets (h : m.Meets i) : cycleOn limit m =
    (do announceOn limit m.pc i; unlimited (execute m.pc i) : TracingM Unit) m.countRead := by
  have ht : m.touched [m.pc] = m.countRead := by
    simp only [touched, Memory.growFor_cons, Memory.growFor_nil, h.growTo_eq]
    rfl
  rw [cycleOn_eq, bind_of_ok (unlimited_of_ok (readCell_of_allows h.reached)), decodeAt,
    h.decoded, ht]
  rfl

theorem announceOn_of_announces (h : m.Announces limit) (hm : m.Meets i) :
    announceOn limit m.pc i m.countRead = .ok () (m.fetched i) := by
  have hreport := unlimited_of_ok (reportExecution_eq (m := m.countRead) (i := i))
  have hwrites : ¬ (m.journal.verbose ∧
      ¬ limit.Writes (literalsAt m.memory m.pc i.opcode.arity)) := fun ⟨hv, hnot⟩ =>
    hnot (h hv i (next?_eq_some_iff.2 hm))
  exact (if_neg hwrites).trans hreport

/-- A step that can announce what it meets does what a step does on any host. -/
theorem cycleOn_of_announces (hf : m.fault = none) (hs : m.IsRunning) (h : m.Announces limit) :
    cycleOn limit m = ownResult (cycle m) := by
  by_cases ha : m.memory.Allows m.pc
  · cases hd : decode (m.memory.peek m.pc) with
    | error d =>
      rw [cycle_of_error ha hd, cycleOn_eq, bind_of_ok (unlimited_of_ok (readCell_of_allows ha)),
        decodeAt, hd]
      rfl
    | ok i =>
      have hm : m.Meets i := ⟨hf, hs, ha, hd⟩
      rw [cycleOn_of_meets hm, bind_of_ok (announceOn_of_announces h hm), cycle_of_meets hm,
        unlimited_eq]
  · rw [cycle_of_not_allows ha, cycleOn_eq,
      bind_of_error (unlimited_of_error (readCell_of_not_allows ha))]
    rfl

theorem stepOn_of_announces (h : m.Announces limit) : stepOn limit m = ownResult (step m) := by
  cases hf : m.fault with
  | some f => simp only [stepOn, step, hf, ownResult]
  | none =>
    by_cases hs : m.status = .stopped
    · simp only [stepOn, step, hf, hs, if_true, ownResult]
    · simp only [stepOn, step, hf, if_neg hs, cycleOn_of_announces hf hs h]
      cases cycle m with
      | ok u n => rfl
      | error failure n => cases failure <;> rfl

/-- A step that cannot announce what it meets has counted that it was fetched. -/
theorem stepOn_of_not_announces (h : ¬ m.Announces limit) :
    stepOn limit m = .error (.tooManyDigits limit.excess) m.countRead := by
  obtain ⟨hv, i, hm, hwrites⟩ := exists_meets_of_not_announces h
  have hannounce : announceOn limit m.pc i m.countRead =
      .error (.tooManyDigits limit.excess) m.countRead := if_pos ⟨hv, hwrites⟩
  have hcycle : cycleOn limit m = .error (.tooManyDigits limit.excess) m.countRead := by
    rw [cycleOn_of_meets hm, bind_of_error hannounce]
  simp only [stepOn, hm.sound, if_neg hm.running, hcycle]

/-! ## Runs -/

/-- The result of a run that writes no numbers. -/
def ownRun : Except Interrupt Unit × Machine → Except (WritingError Interrupt) Unit × Machine :=
  Prod.map (·.mapError .own) id

theorem runRoundOn_of_announces (h : m.Announces limit) :
    runRoundOn limit m = (runRound m).map id ownRun := by
  simp only [runRoundOn, runRound, stepOn_of_announces h]
  cases step m with
  | ok s n => cases s <;> rfl
  | error failure n => rfl

/-- A run that can announce all that it meets is one as on any host. -/
theorem runOn_of_announces (h : ∀ t ∈ visited runRound fuel m, t.Announces limit) :
    runOn limit fuel m = (m.run fuel).map ownRun :=
  loop_of_visited fun t ht => runRoundOn_of_announces (h t ht)

/-- A run that cannot is over at the first instruction that it cannot announce. -/
theorem runOn_of_not_announces {before after : List Machine}
    (hv : visited runRound fuel m = before ++ t :: after)
    (hbefore : ∀ u ∈ before, u.Announces limit) (ht : ¬ t.Announces limit) :
    runOn limit fuel m = some (.error (.tooManyDigits limit.excess), t.countRead) := by
  refine loop_of_visited_append hv (fun u hu => runRoundOn_of_announces (hbefore u hu)) ?_
  simp only [runRoundOn, stepOn_of_not_announces ht]

/-! ## Nudges -/

/-- Nudges are replied to as on any host, if each step can announce what it meets. -/
theorem heedAll_of_announces {nudges : List Nudge}
    (h : ∀ t ∈ m.history fuel (nudges.map Nudge.request), t.Announces limit) :
    ∃ replies n, m.respondAll fuel (nudges.map Nudge.request) = some (replies, n) ∧
      m.heedAll limit nudges = (replies.map .ok, n) := by
  induction nudges generalizing m with
  | nil => exact ⟨[], m, rfl, rfl⟩
  | cons nudge nudges ih =>
    obtain ⟨reply, t, hreply, hheed⟩ : ∃ reply t,
        m.respond fuel nudge.request = some (reply, t) ∧ m.heed limit nudge = (.ok reply, t) := by
      cases nudge with
      | addInputs values => exact ⟨_, _, rfl, rfl⟩
      | step =>
        have hm : m.Announces limit := h m (List.mem_append_left _ List.mem_cons_self)
        simp only [Nudge.request, respond, heed, stepOn_of_announces hm]
        cases step m <;> exact ⟨_, _, rfl, rfl⟩
    simp only [List.map_cons, history, hreply] at h
    obtain ⟨replies, n, hrest, hall⟩ := ih fun u hu => h u (List.mem_append_right _ hu)
    refine ⟨reply :: replies, n, ?_, ?_⟩
    · rw [List.map_cons, respondAll_of_respond hreply, hrest]
      rfl
    · simp only [heedAll, hheed, hall, List.map_cons]

end Machine

end Wordcode
