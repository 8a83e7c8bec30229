import Wordcode.Proofs.Machine.Replay
import Wordcode.Proofs.Machine.Run

/-!
# Inputs in deliveries

A host that has inputs for a machine may queue them all at once, or deliver
them in chunks, each when the machine waits for input (`deliver`). The program
cannot tell: the runs end alike, and the machine that was given its inputs in
chunks has only fetched once more for every time that it was resumed
(`delivery_invisible`).

During the deliveries the machine trails the one that has all inputs queued,
which is left the chunks that are still to come (`Trails.rounds`).
-/

namespace Wordcode

namespace Machine

/-- How a machine ends up to which inputs were delivered. -/
structure Delivery where
  /-- How its last run ended. -/
  outcome : Outcome
  /-- The machine after that run. -/
  machine : Machine
  /-- How often it was resumed. -/
  resumptions : Nat

/-- Runs a machine, and as long as it blocks adds the next chunk and runs it
again. The chunks that are left in the end are added without a run. -/
def deliver (fuel : Nat) (m : Machine) : List (List Int) → Option Delivery
  | [] => (m.tryRun fuel).map fun (outcome, m) => ⟨outcome, m, 0⟩
  | chunk :: chunks =>
    match m.tryRun fuel with
    | none => none
    | some (.interrupted (.blocked _), m) =>
      (deliver fuel (m.addInputs chunk) chunks).map fun delivery =>
        { delivery with resumptions := delivery.resumptions + 1 }
    | some (outcome, m) => some ⟨outcome, (chunk :: chunks).foldl addInputs m, 0⟩

/-- A machine that was resumed some number of times ended as another that was
not resumed, with the same outcome. -/
structure EndsAs (resumptions : Nat) (outcome : Outcome) (m a : Machine) : Prop where
  memory : m.memory = a.memory
  pc : m.pc = a.pc
  base : m.base = a.base
  fault : m.fault = a.fault
  inputs : m.inputs = a.inputs
  outputs : m.outputs = a.outputs
  steps : m.counters.steps = a.counters.steps
  writes : m.counters.writes = a.counters.writes
  taken : m.counters.inputs = a.counters.inputs
  sent : m.counters.outputs = a.counters.outputs
  reads : m.counters.reads = a.counters.reads + resumptions
  status : (∀ failure, outcome ≠ .interrupted (.failed failure)) → m.status = a.status

variable {d fuel k : Nat} {handed rest : List Int} {m n a b t u : Machine} {o : Outcome}

/-! ## One run -/

theorem not_starves_of_runRound (h : runRound m = .again n) : ¬ m.Starves :=
  not_starves_of_step (step_of_runRound h) nofun

/-- A machine keeps trailing another as both run. -/
theorem Trails.rounds (h : Trails d handed rest m a) (hk : stateAfter runRound k m = some n) :
    ∃ b, stateAfter runRound k a = some b ∧ Trails d handed rest n b := by
  induction k generalizing m a with
  | zero =>
    cases hk
    exact ⟨a, rfl, h⟩
  | succ k ih =>
    cases hm : runRound m with
    | done r =>
      rw [stateAfter_succ_of_done hm] at hk
      cases hk
    | again m' =>
      rw [stateAfter_succ_of_again hm] at hk
      obtain ⟨a', ha, -, h'⟩ := h.step_of_ok (not_starves_of_runRound hm) (step_of_runRound hm)
      obtain ⟨b, hb, hn⟩ := ih h' hk
      exact ⟨b, by rw [stateAfter_succ_of_again (runRound_of_running ha), hb], hn⟩

/-- A machine that trails another ends its run as soon as the other does. -/
theorem Trails.tryRun_ends (h : Trails d handed rest m a) (ha : a.tryRun fuel = some (o, b)) :
    ∃ o n, m.tryRun fuel = some (o, n) := by
  cases hm : m.tryRun fuel with
  | some p => exact ⟨p.1, p.2, rfl⟩
  | none =>
    obtain ⟨t, ht⟩ := exists_stateAfter_of_loop_eq_none (Option.map_eq_none_iff.1 hm)
    obtain ⟨u, hu, -⟩ := h.rounds ht
    have hn : a.run fuel = none := loop_eq_none_of_stateAfter hu
    rw [Machine.tryRun, hn] at ha
    cases ha

/-- The last step of a run, of a machine that does not starve in it. -/
theorem Trails.tryStep (h : Trails d handed rest m a) (hm : ¬ m.Starves)
    (hs : m.tryStep = (o, n)) : ∃ b, a.tryStep = (o, b) ∧ (∀ p, o ≠ .interrupted (.blocked p)) ∧
      Trails d handed rest n b ∧ ((∀ f, o ≠ .interrupted (.failed f)) → n.status = b.status) := by
  cases ht : step m with
  | error f n' =>
    rw [tryStep_of_error ht] at hs
    cases hs
    obtain ⟨b, hb, hnb⟩ := h.step_of_error ht
    exact ⟨b, tryStep_of_error hb, nofun, hnb, fun hf => absurd rfl (hf f)⟩
  | ok s n' =>
    have hw := ne_waiting_of_not_starves hm ht
    rw [tryStep_of_ok ht hw] at hs
    cases hs
    obtain ⟨b, hb, hst, hnb⟩ := h.step_of_ok hm ht
    exact ⟨b, tryStep_of_ok hb hw, nofun, hnb, fun _ => hst⟩

/-- The last step of a run finds the machine still trailing the other. -/
theorem Trails.lastStep (h : Trails d handed rest m a) (hr : m.tryRun fuel = some (o, n)) :
    ∃ k t u, k < fuel ∧ stateAfter runRound k a = some u ∧ Trails d handed rest t u ∧
      t.tryStep = (o, n) ∧ o ≠ .progressed .running := by
  obtain ⟨k, t, hk, ht, hs, ho⟩ := exists_stateAfter_of_tryRun hr
  obtain ⟨u, hu, htu⟩ := h.rounds ht
  exact ⟨k, t, u, hk, hu, htu, hs, ho⟩

/-! ## Several runs -/

theorem foldl_addInputs {chunks : List (List Int)} :
    chunks.foldl addInputs m = { m with inputs := m.inputs.extend chunks.flatten } := by
  induction chunks generalizing m with
  | nil => rw [List.foldl_nil, List.flatten_nil, Queue.extend_nil]
  | cons c cs ih =>
    have hc : (m.inputs.extend c).extend cs.flatten = m.inputs.extend (c :: cs).flatten :=
      Queue.ext (by simp)
    rw [List.foldl_cons, ih, ← hc]
    rfl

/-- Once the chunks that are left are added, nothing is left to be given. -/
theorem Trails.endsAs {chunks : List (List Int)} (h : Trails d [] chunks.flatten n b)
    (hs : (∀ f, o ≠ .interrupted (.failed f)) → n.status = b.status) :
    EndsAs d o (chunks.foldl Machine.addInputs n) b := by
  rw [foldl_addInputs]
  refine ⟨h.memory, h.pc, h.base, h.fault, ?_, ?_, ?_, ?_, ?_, ?_, ?_, hs⟩
  · refine Queue.ext ?_
    rw [h.inputs]
    exact Queue.toList_extend
  · exact Queue.ext h.outputs.symm
  all_goals exact h.counters ▸ rfl

theorem deliver_cons_of_blocked {p : Int} {c : List Int} {cs : List (List Int)}
    (h : m.tryRun fuel = some (.interrupted (.blocked p), n)) :
    deliver fuel m (c :: cs) = (deliver fuel (n.addInputs c) cs).map fun delivery =>
      { delivery with resumptions := delivery.resumptions + 1 } := by
  simp only [deliver, h]

theorem deliver_of_not_blocked {chunks : List (List Int)} (h : m.tryRun fuel = some (o, n))
    (ho : ∀ p, o ≠ .interrupted (.blocked p)) :
    deliver fuel m chunks = some ⟨o, chunks.foldl addInputs n, 0⟩ := by
  cases chunks with
  | nil => simp only [deliver, h, Option.map_some, List.foldl_nil]
  | cons c cs => simp only [deliver, h]

theorem deliver_mono {fuel' : Nat} {chunks : List (List Int)} {delivery : Delivery}
    (h : deliver fuel m chunks = some delivery) (hf : fuel ≤ fuel') :
    deliver fuel' m chunks = some delivery := by
  induction chunks generalizing m delivery with
  | nil =>
    obtain ⟨⟨o, n⟩, hr, hd⟩ := Option.map_eq_some_iff.1 h
    rw [deliver, tryRun_mono hr hf]
    exact congrArg some hd
  | cons c cs ih =>
    cases hr : m.tryRun fuel with
    | none =>
      simp only [deliver, hr] at h
      cases h
    | some p =>
      obtain ⟨o, n⟩ := p
      by_cases ho : ∃ q, o = .interrupted (.blocked q)
      · obtain ⟨q, rfl⟩ := ho
        rw [deliver_cons_of_blocked hr] at h
        rw [deliver_cons_of_blocked (tryRun_mono hr hf)]
        obtain ⟨x, hx, hd⟩ := Option.map_eq_some_iff.1 h
        rw [ih hx]
        exact congrArg some hd
      · have ho' : ∀ q, o ≠ .interrupted (.blocked q) := fun q hq => ho ⟨q, hq⟩
        rw [deliver_of_not_blocked hr ho'] at h
        rw [deliver_of_not_blocked (tryRun_mono hr hf) ho', h]

/-- Deliveries to a machine whose first run ends without starving. -/
theorem Trails.deliver_of_not_starves {chunks : List (List Int)}
    (h : Trails d [] chunks.flatten t u) (hm : ¬ t.Starves) (hr : m.tryRun fuel = some (o, n))
    (hu : stateAfter runRound k a = some u) (hs : t.tryStep = (o, n))
    (ho : o ≠ .progressed .running) :
    Machine.deliver fuel m chunks = some ⟨o, chunks.foldl Machine.addInputs n, 0⟩ ∧
      ∃ b, a.tryRun (k + 1) = some (o, b) ∧
        EndsAs d o (chunks.foldl Machine.addInputs n) b := by
  obtain ⟨b, hb, hblocked, hnb, hst⟩ := h.tryStep hm hs
  exact ⟨deliver_of_not_blocked hr hblocked, b, tryRun_of_lastStep hu hb ho, hnb.endsAs hst⟩

/-- Deliveries to a machine end as one run of the machine that it trails. -/
theorem Trails.deliver {chunks : List (List Int)} {delivery : Delivery}
    (h : Trails d [] chunks.flatten m a) (hd : Machine.deliver fuel m chunks = some delivery) :
    ∃ fuel' b, a.tryRun fuel' = some (delivery.outcome, b) ∧
      EndsAs (d + delivery.resumptions) delivery.outcome delivery.machine b := by
  induction chunks generalizing d m a delivery with
  | nil =>
    obtain ⟨⟨o, n⟩, hr, -⟩ := Option.map_eq_some_iff.1 hd
    obtain ⟨k, t, u, -, hu, htu, hs, ho⟩ := h.lastStep hr
    by_cases hm : t.Starves
    · obtain ⟨n', b, hn, hb, hnb⟩ := htu.step_of_starves_both hm
      rw [tryStep_of_waiting hn] at hs
      cases hs
      rw [Machine.deliver, hr] at hd
      cases hd
      have he : EndsAs d (.interrupted (.blocked n.pc)) ([].foldl Machine.addInputs n) b :=
        hnb.endsAs fun _ => by rw [status_eq_of_step hn, status_eq_of_step hb]
      refine ⟨k + 1, b, tryRun_of_lastStep hu ?_ ho, he⟩
      rw [tryStep_of_waiting hb, hnb.pc]
    · obtain ⟨hd', b, hb, he⟩ := htu.deliver_of_not_starves hm hr hu hs ho
      rw [hd'] at hd
      cases hd
      exact ⟨k + 1, b, hb, he⟩
  | cons c cs ih =>
    cases hr : m.tryRun fuel with
    | none =>
      simp only [Machine.deliver, hr] at hd
      cases hd
    | some p =>
      obtain ⟨o, n⟩ := p
      obtain ⟨k, t, u, -, hu, htu, hs, ho⟩ := h.lastStep hr
      by_cases hm : t.Starves
      · obtain ⟨n', hn, hnu⟩ := htu.step_of_starves hm
        rw [tryStep_of_waiting hn] at hs
        cases hs
        rw [deliver_cons_of_blocked hr] at hd
        obtain ⟨delivery', hd', rfl⟩ := Option.map_eq_some_iff.1 hd
        obtain ⟨fuel', b, hb, he⟩ := ih hnu.addInputs hd'
        refine ⟨k + fuel', b, (tryRun_add_of_stateAfter hu).trans hb, ?_⟩
        rw [Nat.add_right_comm] at he
        exact he
      · obtain ⟨hd', b, hb, he⟩ := htu.deliver_of_not_starves hm hr hu hs ho
        rw [hd'] at hd
        cases hd
        exact ⟨k + 1, b, hb, he⟩

/-- If the machine that is trailed ends its run, all runs between deliveries
end. -/
theorem Trails.deliver_ends {chunks : List (List Int)} (h : Trails d [] chunks.flatten m a)
    (ha : a.tryRun fuel = some (o, b)) :
    ∃ fuel' delivery, Machine.deliver fuel' m chunks = some delivery := by
  induction chunks generalizing d m a fuel with
  | nil =>
    obtain ⟨o, n, hr⟩ := h.tryRun_ends ha
    exact ⟨fuel, ⟨o, n, 0⟩, by rw [Machine.deliver, hr]; rfl⟩
  | cons c cs ih =>
    obtain ⟨o', n, hr⟩ := h.tryRun_ends ha
    obtain ⟨k, t, u, hk, hu, htu, hs, ho⟩ := h.lastStep hr
    by_cases hm : t.Starves
    · obtain ⟨n', hn, hnu⟩ := htu.step_of_starves hm
      rw [tryStep_of_waiting hn] at hs
      cases hs
      obtain ⟨j, rfl⟩ := Nat.exists_eq_add_of_le (Nat.le_of_lt hk)
      rw [tryRun_add_of_stateAfter hu] at ha
      obtain ⟨fuel', delivery, hd⟩ := ih hnu.addInputs ha
      refine ⟨max (k + j) fuel', { delivery with resumptions := delivery.resumptions + 1 }, ?_⟩
      rw [deliver_cons_of_blocked (tryRun_mono hr (Nat.le_max_left ..)),
        deliver_mono hd (Nat.le_max_right ..)]
      rfl
    · exact ⟨fuel, _, (htu.deliver_of_not_starves hm hr hu hs ho).1⟩

/-- A machine that is given its inputs in chunks does what it does if it is
given all at once: the runs end or not alike, and with the same result. -/
theorem delivery_invisible (program chunk : List Int) (chunks : List (List Int)) (verbose : Bool) :
    ((∃ fuel, ((load program (chunk ++ chunks.flatten) verbose).tryRun fuel).isSome) ↔
      ∃ fuel, (deliver fuel (load program chunk verbose) chunks).isSome) ∧
    ∀ fuel fuel' outcome machine delivery,
      (load program (chunk ++ chunks.flatten) verbose).tryRun fuel = some (outcome, machine) →
      deliver fuel' (load program chunk verbose) chunks = some delivery →
      delivery.outcome = outcome ∧
        EndsAs delivery.resumptions outcome delivery.machine machine := by
  refine ⟨⟨fun ⟨fuel, h⟩ => ?_, fun ⟨fuel, h⟩ => ?_⟩, ?_⟩
  · obtain ⟨⟨o, b⟩, ha⟩ := Option.isSome_iff_exists.1 h
    obtain ⟨fuel', delivery, hd⟩ := trails_load.deliver_ends ha
    exact ⟨fuel', Option.isSome_iff_exists.2 ⟨delivery, hd⟩⟩
  · obtain ⟨delivery, hd⟩ := Option.isSome_iff_exists.1 h
    obtain ⟨fuel', b, ha, -⟩ := trails_load.deliver hd
    exact ⟨fuel', Option.isSome_iff_exists.2 ⟨_, ha⟩⟩
  · intro fuel fuel' outcome machine delivery ha hd
    obtain ⟨fuel'', b, hb, he⟩ := trails_load.deliver hd
    have hm := tryRun_mono ha (Nat.le_max_left fuel fuel'')
    rw [tryRun_mono hb (Nat.le_max_right fuel fuel'')] at hm
    cases hm
    rw [Nat.zero_add] at he
    exact ⟨rfl, he⟩

/-- A machine that is resumed twice, the first time in vain. -/
theorem delivery_invisible_resumed_twice : ∃ machine delivery,
    (load [3, 0, 3, 1, 4, 1, 99] [5, 7] false).tryRun 10 = some (.progressed .stopped, machine) ∧
    deliver 10 (load [3, 0, 3, 1, 4, 1, 99] [5] false) [[], [7]] = some delivery ∧
    EndsAs 2 (.progressed .stopped) delivery.machine machine := by
  have ha : ((load [3, 0, 3, 1, 4, 1, 99] [5, 7] false).tryRun 10).map (·.1) =
      some (.progressed .stopped) := by decide +kernel
  have hd : (deliver 10 (load [3, 0, 3, 1, 4, 1, 99] [5] false) [[], [7]]).map (·.resumptions) =
      some 2 := by decide +kernel
  obtain ⟨⟨outcome, machine⟩, ha, rfl⟩ := Option.map_eq_some_iff.1 ha
  obtain ⟨delivery, hd, hk⟩ := Option.map_eq_some_iff.1 hd
  refine ⟨machine, delivery, ha, hd, ?_⟩
  rw [← hk]
  exact ((delivery_invisible _ _ [[], [7]] false).2 10 10 _ machine delivery ha hd).2

end Machine

end Wordcode
