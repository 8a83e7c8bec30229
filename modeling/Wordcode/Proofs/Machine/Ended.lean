import Wordcode.Proofs.Machine.Request

/-!
# Machines that have ended

A machine that has halted or has recorded a fault never does anything again. It
still takes inputs and hands out the outputs it has, but whatever is asked of it,
its memory, registers, status and counters stay as they are, and it tells the
same thing every time (`ended_for_good`). What it tells, its verdict, is the
fault that was recorded, or that it has halted before. The latter is no fault
that was ever recorded (`Lawful`).
-/

namespace Wordcode

namespace Machine

variable {fuel : Nat} {m n : Machine} {request : Request} {requests : List Request}
  {buffer : List Int} {f : Failure} {e : Effect}

/-- The machine has halted, or has recorded a fault. -/
def Ended (m : Machine) : Prop := m.status = .stopped ∨ m.fault ≠ none

/-- Why a machine that has ended does not go on. -/
def verdict (m : Machine) : Fault := m.fault.getD (.alreadyHalted m.pc)

/-- What the ended machine `m` replies to a request while the outputs in `buffer`
are not handed out, and which of them are left. -/
def finalReply (m : Machine) (buffer : List Int) : Request → Reply × List Int
  | .step => (.stepped (.error (.fault m.verdict)), buffer)
  | .run => (.ran (.error (.failed (.fault m.verdict))), buffer)
  | .runUntilOutput =>
    match buffer with
    | value :: rest => (.sought (.ok (some value)), rest)
    | [] =>
      if m.status = .stopped then (.sought (.ok none), [])
      else (.sought (.error (.failed (.fault m.verdict))), [])
  | .tryStep | .tryRun => (.tried (.interrupted (.failed (.fault m.verdict))), buffer)
  | .addInputs _ => (.queued, buffer)
  | .drainOutputs => (.drained buffer, [])

/-- What the ended machine `m` replies to requests. -/
def finalReplies (m : Machine) : List Int → List Request → List Reply
  | _, [] => []
  | buffer, request :: requests =>
    (m.finalReply buffer request).1 :: m.finalReplies (m.finalReply buffer request).2 requests

/-- The machines are equal but for what is queued, and for what was reported. -/
structure Unchanged (m n : Machine) : Prop where
  memory : n.memory = m.memory
  pc : n.pc = m.pc
  base : n.base = m.base
  status : n.status = m.status
  fault : n.fault = m.fault
  counters : n.counters = m.counters

theorem Unchanged.refl (m : Machine) : Unchanged m m := ⟨rfl, rfl, rfl, rfl, rfl, rfl⟩

theorem Unchanged.trans {o : Machine} (h : Unchanged m n) (h' : Unchanged n o) : Unchanged m o :=
  ⟨h'.memory.trans h.memory, h'.pc.trans h.pc, h'.base.trans h.base, h'.status.trans h.status,
    h'.fault.trans h.fault, h'.counters.trans h.counters⟩

/-! ## Faults that are recorded -/

/-- What is recorded as a fault, and when. -/
structure Lawful (m : Machine) : Prop where
  recorded : ∀ address, m.fault ≠ some (.alreadyHalted address)
  sound : m.status = .stopped → m.fault = none

theorem lawful_of_sound (h : m.fault = none) : Lawful m :=
  ⟨fun _ hf => (nomatch h.symm.trans hf), fun _ => h⟩

theorem ofAccess_ne_alreadyHalted {e : Memory.AccessError} {a : Int} :
    Failure.ofAccess e ≠ .fault (.alreadyHalted a) := by
  cases e <;> exact nofun

/-- A failing step leaves a lawful machine, if its failure is not that the machine
has halted before. -/
theorem lawful_failing (hf : n.fault = none) (hs : n.IsRunning)
    (h : ∀ a, f ≠ .fault (.alreadyHalted a)) : Lawful (left (n.failing f)) := by
  cases f with
  | fault f => exact ⟨fun a ha => h a (by cases ha; rfl), fun hn => absurd hn hs⟩
  | memoryLimit => exact lawful_of_sound hf

theorem running_taking (hs : m.IsRunning) : (m.taking e).IsRunning := by
  unfold taking
  split
  · exact hs
  · exact hs

@[simp] theorem fault_waiting : m.waiting.fault = m.fault := by
  unfold waiting
  split <;> rfl

/-- A step records no other faults than it may. -/
theorem lawful_after (hm : Lawful m) : Lawful m.after := by
  have hr := m.stepped
  rw [after]
  generalize step m = r at hr ⊢
  cases hr with
  | faulted => exact hm
  | halted => exact hm
  | unreached hf hs => exact lawful_failing hf hs fun _ => ofAccess_ne_alreadyHalted
  | undecoded hf hs => exact lawful_failing hf hs fun _ h => by cases h
  | starved h => exact lawful_of_sound (fault_waiting.trans h.sound)
  | @unread i _ _ _ h =>
    have hs : ((m.fetched i).taking (m.effect i)).IsRunning := running_taking h.running
    exact lawful_failing (fault_taking.trans h.sound) hs fun _ => ofAccess_ne_alreadyHalted
  | @unwritten i _ _ h =>
    have hs : ((m.fetched i).taking (m.effect i)).IsRunning := running_taking h.running
    exact lawful_failing (fault_taking.trans h.sound) hs fun _ => ofAccess_ne_alreadyHalted
  | executed h => exact lawful_of_sound (fault_performed.trans h.sound)

theorem lawful_of_respondAll {program inputs : List Int} {verbose : Bool} {replies : List Reply}
    (hr : (load program inputs verbose).respondAll fuel requests = some (replies, m)) : Lawful m :=
  respondAll_keep (fun _ => lawful_after) (fun _ _ _ hm => ⟨hm.recorded, hm.sound⟩)
    (lawful_of_sound rfl) hr

/-! ## What a machine that has ended replies -/

theorem Unchanged.ended (h : Unchanged m n) (hm : m.Ended) : n.Ended := by
  rwa [Ended, h.status, h.fault]

theorem Unchanged.verdict (h : Unchanged m n) : n.verdict = m.verdict := by
  rw [Machine.verdict, Machine.verdict, h.fault, h.pc]

theorem Unchanged.of_queues (h : Unchanged m n) {p q : Queue} :
    Unchanged m { n with inputs := p, outputs := q } :=
  ⟨h.memory, h.pc, h.base, h.status, h.fault, h.counters⟩

theorem step_of_ended (hm : m.Ended) : step m = .error (.fault m.verdict) m := by
  cases hf : m.fault with
  | some f =>
    rw [(Stepped.faulted hf).eq, verdict, hf]
    rfl
  | none =>
    have hs : m.status = .stopped := hm.resolve_right fun h => h hf
    rw [(Stepped.halted hf hs).eq, verdict, hf]
    rfl

theorem run_of_ended (hm : m.Ended) :
    m.run (fuel + 1) = some (.error (.failed (.fault m.verdict)), m) := by
  refine loop_succ_of_done ?_
  rw [runRound, step_of_ended hm]

/-- A reply of an ended machine, whose outputs `buffer` are not handed out. -/
theorem respond_of_ended (fuel : Nat) (hm : m.Ended) (request : Request) :
    ∃ n, m.respond (fuel + 1) request = some ((m.finalReply m.outputs.toList request).1, n) ∧
      n.outputs.toList = (m.finalReply m.outputs.toList request).2 ∧ Unchanged m n := by
  have hsame := Unchanged.refl m
  cases request with
  | step => exact ⟨m, by rw [respond, step_of_ended hm]; rfl, rfl, hsame⟩
  | run => exact ⟨m, by rw [respond, run_of_ended hm]; rfl, rfl, hsame⟩
  | tryStep => exact ⟨m, by rw [respond, tryStep_of_error (step_of_ended hm)]; rfl, rfl, hsame⟩
  | tryRun => exact ⟨m, by rw [respond, tryRun, run_of_ended hm]; rfl, rfl, hsame⟩
  | addInputs values => exact ⟨m.addInputs values, rfl, rfl, hsame.of_queues⟩
  | drainOutputs => exact ⟨m.drainOutputs.2, rfl, rfl, hsame.of_queues⟩
  | runUntilOutput =>
    have hround : ∀ r, Seeks m (.done r) →
        m.respond (fuel + 1) .runUntilOutput = some (.sought r.1, r.2) := by
      intro r hr
      have hl : m.runUntilOutput (fuel + 1) = some r := loop_succ_of_done hr.eq
      rw [respond, hl]
      rfl
    cases ho : m.outputs.toList with
    | cons v rest =>
      have hp := Queue.pop?_of_toList_eq_cons ho
      refine ⟨_, hround _ (.found hp), ?_, hsame.of_queues⟩
      rw [Queue.toList_tail, ho]
      rfl
    | nil =>
      by_cases hs : m.status = .stopped
      · refine ⟨m, ?_, ?_, hsame⟩
        · rw [hround _ (.exhausted ho hs), finalReply, if_pos hs]
        · rw [finalReply, if_pos hs, ho]
      · refine ⟨m, ?_, ?_, hsame⟩
        · rw [hround _ (.failed ho hs (step_of_ended hm)), finalReply, if_neg hs]
        · rw [finalReply, if_neg hs, ho]

/-- A machine that is unchanged, but for its queues, replies alike. -/
theorem Unchanged.finalReply (h : Unchanged m n) :
    n.finalReply buffer request = m.finalReply buffer request := by
  cases request with
  | runUntilOutput => cases buffer <;> simp only [Machine.finalReply, h.verdict, h.status]
  | _ => simp only [Machine.finalReply, h.verdict]

theorem Unchanged.respondAll (h : Unchanged m n) (hm : m.Ended) (requests : List Request) :
    ∃ t, n.respondAll (fuel + 1) requests = some (m.finalReplies n.outputs.toList requests, t) ∧
      Unchanged m t := by
  induction requests generalizing n with
  | nil => exact ⟨n, rfl, h⟩
  | cons request requests ih =>
    obtain ⟨u, hu, ho, hnu⟩ := respond_of_ended fuel (h.ended hm) request
    rw [h.finalReply] at hu ho
    obtain ⟨t, ht, hmt⟩ := ih (h.trans hnu)
    refine ⟨t, ?_, hmt⟩
    simp only [Machine.respondAll, hu, Option.bind_eq_bind, Option.bind_some, ht, finalReplies, ho]
    rfl

/-- No machine that requests lead to has recorded as a fault that it has halted
before. Once it has halted or recorded a fault, it replies to all further requests
as an ended machine, and nothing but its queues changes any more. -/
theorem ended_for_good (program inputs : List Int) (verbose : Bool) (fuel : Nat)
    (before : List Request) {replies : List Reply} {m : Machine}
    (hr : (load program inputs verbose).respondAll fuel before = some (replies, m)) :
    (∀ address, m.fault ≠ some (.alreadyHalted address)) ∧
    (m.status = .stopped → m.fault = none) ∧
    (m.Ended → ∀ fuel requests, ∃ n,
      m.respondAll (fuel + 1) requests = some (m.finalReplies m.outputs.toList requests, n) ∧
        Unchanged m n) := by
  have hl := lawful_of_respondAll hr
  refine ⟨hl.recorded, hl.sound, fun hm fuel requests => ?_⟩
  exact (Unchanged.refl m).respondAll hm requests

/-- A machine that still waits for input when it is found at fault, with an output
that was not handed out. -/
theorem ended_for_good_waiting : ∃ replies m n,
    (load [4, 0, 3, -1] [] false).respondAll 9 [.run, .addInputs [5], .tryRun] =
      some (replies, m) ∧
    m.status = .waiting ∧ m.fault = some (.negativeAddress (-1)) ∧
    m.respondAll 1 [.addInputs [6], .runUntilOutput, .runUntilOutput, .step] =
      some ([.queued, .sought (.ok (some 4)),
        .sought (.error (.failed (.fault (.negativeAddress (-1))))),
        .stepped (.error (.fault (.negativeAddress (-1))))], n) ∧ Unchanged m n := by
  have hr : ((load [4, 0, 3, -1] [] false).respondAll 9 [.run, .addInputs [5], .tryRun]).map
      (fun p => (p.2.status, p.2.fault, p.2.outputs.toList)) =
        some (.waiting, some (.negativeAddress (-1)), [4]) := by decide +kernel
  obtain ⟨⟨replies, m⟩, hr, hm⟩ := Option.map_eq_some_iff.1 hr
  obtain ⟨hs, hf, ho⟩ : m.status = .waiting ∧ m.fault = some (.negativeAddress (-1)) ∧
      m.outputs.toList = [4] := by simpa using hm
  have hended : m.Ended := .inr (by rw [hf]; exact nofun)
  obtain ⟨n, hn, hmn⟩ := (ended_for_good _ _ _ _ _ hr).2.2 hended 0
    [.addInputs [6], .runUntilOutput, .runUntilOutput, .step]
  refine ⟨replies, m, n, hr, hs, hf, ?_, hmn⟩
  rw [hn, ho]
  simp only [finalReplies, finalReply, verdict, hf, hs, Option.getD_some, reduceCtorEq, if_false]

end Machine

end Wordcode
