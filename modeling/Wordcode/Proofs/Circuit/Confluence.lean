import Wordcode.Proofs.Circuit.Conservation
import Wordcode.Proofs.Circuit.Schedule

/-!
# The schedule makes no difference

A feedback loop serves its amplifiers in turn and holds the last one's outputs
for a round. Any other order of steps and messages comes to the same, because
what a machine sends depends only on what it is sent, and on no time.

The loop leaves each amplifier at rest (`Reference`). The invariant of any
schedule is that no amplifier was given more than in the loop, and none came
further (`Within`): what it was sent is a part of what its neighbour sends in
the loop, since that one came no further either. So no amplifier can fail that
did not, and if all have halted they have come to where the loop left them
(`feedback_independent_of_schedule`).
-/

namespace Wordcode

open Machine

namespace Circuit

variable {fuel i j k n : Nat} {phases program held : List Int} {signal v : Int}
  {ms : List Machine} {g : Nat → List Machine} {circuit last next : Circuit} {journal : Journal}
  {a b r : Machine} {ring ring' : List Station} {s t : Station} {swept : Swept}

/-! ## Where the loop leaves its amplifiers -/

/-- Amplifiers that are at rest, with the histories `g`, and that were given all
that was sent but for the values held. -/
structure Reference (program phases : List Int) (signal : Int) (ms : List Machine)
    (held : List Int) (g : Nat → List Machine) : Prop where
  balanced : Balanced phases signal ms held g
  drained : ∀ (i : Nat) (a : Machine), ms[i]? = some a → a.outputs.toList = []
  replays : ∀ i a, ms[i]? = some a → Replays program (g i) a
  resting : ∀ (i : Nat) (a : Machine), ms[i]? = some a →
    a.status = .stopped ∨ (a.Starves ∧ held = [])

/-- All values that were sent to the `i`-th amplifier, the held ones included. -/
def stream (ms : List Machine) (held : List Int) (g : Nat → List Machine) (i : Nat) : List Int :=
  (ms[i]?.elim [] (delivered (g i))) ++ if i = 0 then held else []

/-- The number of instructions that the `i`-th amplifier has executed. -/
def stepsOf (ms : List Machine) (i : Nat) : Nat := ms[i]?.elim 0 (·.counters.steps)

namespace Reference

/-- An amplifier, given also the values held for it, rests where it is. -/
theorem rests (h : Reference program phases signal ms held g) (hb : ms[i]? = some b) :
    ∃ d handed r, RestsAt program (stream ms held g i) (stepsOf ms i) r ∧
      Trails d handed (if i = 0 then held else []) b r ∧ r.outputs.toList = sent (g i) := by
  obtain ⟨d, handed, r, hr, hbr, ho⟩ := (h.replays i b hb).extend (if i = 0 then held else [])
  have hreached : (load program (stream ms held g i) false).advance (stepsOf ms i) = some r := by
    simp only [stream, stepsOf, hb]
    exact hr
  refine ⟨d, handed, r, ⟨hreached, ?_⟩, hbr, ho⟩
  rcases h.resting i b hb with hs | ⟨hs, rfl⟩
  · exact .inl (hbr.stopped_iff.1 hs)
  · refine .inr ((hbr.starves_iff ?_).1 hs)
    rw [hbr.inputs, ite_self, List.append_nil]

/-- What was sent to an amplifier is its first inputs and then all that the one
before it has sent. -/
theorem stream_next (h : Reference program phases signal ms held g) {phase : Int}
    (ha : ms[i]? = some a) (hphase : phases[(i + 1) % phases.length]? = some phase) :
    stream ms held g ((i + 1) % phases.length) =
      firstInputs phase signal ((i + 1) % phases.length) ++ sent (g i) := by
  have hlen := h.balanced.length
  have hi : i < phases.length := hlen ▸ (List.getElem?_eq_some_iff.1 ha).1
  have hdrained := h.drained i a ha
  by_cases hlt : i + 1 < phases.length
  · rw [Nat.mod_eq_of_lt hlt] at hphase ⊢
    have hb := List.getElem?_eq_getElem (hlen ▸ hlt)
    have hbal := h.balanced.between i a _ phase ha hb hphase
    rw [hdrained, List.append_nil] at hbal
    simp only [stream, hb, Nat.succ_ne_zero, if_false, List.append_nil]
    exact hbal.symm
  · have heq : i + 1 = phases.length := by omega
    have hmod : (i + 1) % phases.length = 0 := by rw [heq, Nat.mod_self]
    rw [hmod] at hphase ⊢
    have hlast : ms.length - 1 = i := by omega
    have hb := List.getElem?_eq_getElem (show 0 < ms.length by omega)
    have hbal := h.balanced.around a _ phase (hlast ▸ ha) hb hphase
    rw [hdrained, List.append_nil, hlast] at hbal
    simp only [stream, hb]
    exact hbal.symm

end Reference

/-! ## The loop leaves its amplifiers at rest -/

theorem Serves.replays {given handed : List Int} {g h : List Machine}
    (hs : Serves fuel (.ok swept) a given handed h b) (ha : Replays program g a) :
    Replays program (g ++ h) b := by
  obtain ⟨p, n, hserve, -, rfl, rfl⟩ := hs.of_ok
  have hstep : ∀ h m s n, Replays program h m → m.IsRunning → Machine.step m = .ok s n →
      Replays program (h ++ [m]) n := fun h m s n hm _ hms => hm.step hms
  have hn := serve_keep hstep ha.addInputs hserve
  exact hn.of_outputs (List.append_nil n.outputs.toList)

theorem Passes.replays {w : Nat → List Int} (hp : Passes fuel circuit held (.ok swept) next w)
    (h : ∀ i a, circuit.amplifiers[i]? = some a → Replays program (g i) a) (i : Nat) (b : Machine)
    (hb : next.amplifiers[i]? = some b) :
    Replays program (g i ++ sweepHistory fuel circuit.amplifiers held i) b := by
  obtain ⟨a, n, ha, rfl, hab⟩ := hp.serves i b hb
  exact (hab.replays (h i a ha)).of_journal

theorem replays_of_feedback (hb : build program phases journal = .ok circuit)
    {state : Circuit × List Int}
    (hk : stateAfter (feedbackRound fuel) k (circuit.inject signal, []) = some state) (i : Nat)
    (a : Machine) (ha : state.1.amplifiers[i]? = some a) :
    Replays program (feedbackHistory fuel k (circuit.inject signal, []) i) a := by
  let P : (Nat → List Machine) → Circuit × List Int → Prop := fun g state =>
    ∀ i a, state.1.amplifiers[i]? = some a → Replays program (g i) a
  have hP : ∀ g circuit held next held', P g (circuit, held) →
      (∃ m ∈ circuit.amplifiers, m.IsRunning) → circuit.round fuel held = some (.ok held', next) →
      P (fun i => g i ++ sweepHistory fuel circuit.amplifiers held i) (next, held') := by
    intro g circuit held next held' h _ hs
    obtain ⟨r, w, hc, hp⟩ := round_passes hs
    cases hc with
    | passed => exact hp.replays h
  have hstart : P (fun _ => []) (circuit.inject signal, []) := by
    intro i a ha
    obtain ⟨phase, -, rfl⟩ := fresh_amplifier hb ha
    exact .start
  exact feedback_keep hP hstart hk i a ha

theorem reference_of_ok (hb : build program phases journal = .ok circuit)
    (h : runFeedback fuel circuit signal = some (.ok v, next)) :
    (∃ held, Reference program phases signal next.amplifiers held
      (feedbackHistory fuel fuel (circuit.inject signal, []))) ∧
    ∀ m ∈ next.amplifiers, m.status = .stopped := by
  obtain ⟨k, last, held, hk, ⟨-, ⟨e, he, -⟩, -⟩ | ⟨hstop, hclose, hh⟩⟩ := runFeedback_cases h
  · cases he
  · have hf := flowing_of_feedback hb hk
    rw [(close_eq_ok hclose).2, hh]
    refine ⟨⟨held, hf.balanced, hf.drained, replays_of_feedback hb hk, fun i a ha => ?_⟩, hstop⟩
    exact .inl (hstop a (List.mem_of_getElem? ha))

theorem reference_of_deadlock (hb : build program phases journal = .ok circuit)
    (h : runFeedback fuel circuit signal = some (.error .deadlocked, next)) :
    Reference program phases signal next.amplifiers []
      (feedbackHistory fuel fuel (circuit.inject signal, [])) ∧
    ∃ m ∈ next.amplifiers, m.status = .waiting := by
  obtain ⟨k, last, held, hk, ⟨⟨m, hm, -⟩, ⟨e, he, hround⟩, hh⟩ | ⟨-, hclose, -⟩⟩ :=
    runFeedback_cases h
  · cases he
    have hbal := (flowing_of_feedback hb hk).round_error (List.ne_nil_of_mem hm) hround
    obtain ⟨r, w, hc, hp⟩ := round_passes hround
    cases hc with
    | @deadlocked swept _ hw =>
      rw [hh]
      refine ⟨⟨hbal, fun i b hb' => ?_, hp.replays (replays_of_feedback hb hk), fun i b hb' => ?_⟩,
        hw⟩
      · obtain ⟨a, n, -, rfl, hab⟩ := hp.serves i b hb'
        exact hab.dormant.drained
      · obtain ⟨a, n, -, rfl, hab⟩ := hp.serves i b hb'
        exact hab.dormant.takeJournal.rests.imp_right fun h => ⟨h.2, rfl⟩
  · cases (close_eq_error hclose).1

/-! ## The invariant of all schedules -/

/-- No amplifier of the ring was given more than in the loop, and none came
further. Between two of them no message was lost. -/
structure Within (program phases : List Int) (signal : Int) (ms : List Machine) (held : List Int)
    (g : Nat → List Machine) (ring : List Station) : Prop where
  length : ring.length = phases.length
  bounded : ∀ i s, ring[i]? = some s →
    Bounded program (stream ms held g i) (stepsOf ms i) s.history s.machine
  channel : ∀ i s t phase, ring[i]? = some s → ring[(i + 1) % phases.length]? = some t →
    phases[(i + 1) % phases.length]? = some phase →
    firstInputs phase signal ((i + 1) % phases.length) ++ sent s.history =
      t.delivered ++ s.machine.outputs.toList

theorem succ_mod (hi : i < n) : (i + 1) % n = if i + 1 = n then 0 else i + 1 := by
  split
  · next h => rw [h, Nat.mod_self]
  · exact Nat.mod_eq_of_lt (by omega)

theorem succ_mod_injective (hi : i < n) (hj : j < n) (h : (i + 1) % n = (j + 1) % n) : i = j := by
  rw [succ_mod hi, succ_mod hj] at h
  split at h <;> split at h <;> omega

theorem exists_succ_mod (hi : i < n) : ∃ j, j < n ∧ (j + 1) % n = i := by
  cases i with
  | zero => exact ⟨n - 1, by omega, by rw [Nat.sub_add_cancel hi, Nat.mod_self]⟩
  | succ i => exact ⟨i, by omega, Nat.mod_eq_of_lt hi⟩

theorem within_start (hb : build program phases journal = .ok circuit)
    (hr : Reference program phases signal ms held g) :
    Within program phases signal ms held g (circuit.inject signal).stations := by
  have hlen : (circuit.inject signal).stations.length = phases.length := by
    rw [stations, List.length_map]
    exact (flowing_start hb).balanced.length
  have hfresh : ∀ i s, (circuit.inject signal).stations[i]? = some s →
      ∃ phase, phases[i]? = some phase ∧
        s = Station.mk (load program (firstInputs phase signal i) journal.verbose) [] := by
    intro i s hs
    rw [stations, List.getElem?_map] at hs
    obtain ⟨a, ha, rfl⟩ := Option.map_eq_some_iff.1 hs
    obtain ⟨phase, hphase, rfl⟩ := fresh_amplifier hb ha
    exact ⟨phase, hphase, rfl⟩
  have hdelivered : ∀ xs, (Station.mk (load program xs journal.verbose) []).delivered = xs :=
    fun xs => Queue.toList_ofList
  refine ⟨hlen, fun i s hs => ?_, fun i s t phase hs ht hphase => ?_⟩
  · obtain ⟨phase, hphase, rfl⟩ := hfresh i s hs
    obtain ⟨j, hj, rfl⟩ := exists_succ_mod (List.getElem?_eq_some_iff.1 hphase).1
    have ha := List.getElem?_eq_getElem (hr.balanced.length ▸ hj)
    refine ⟨.start, ?_, Nat.zero_le _⟩
    show (Station.mk (load program _ journal.verbose) []).delivered <+: _
    rw [hr.stream_next ha hphase, hdelivered]
    exact List.prefix_append ..
  · obtain ⟨q, -, rfl⟩ := hfresh i s hs
    obtain ⟨q', hq', rfl⟩ := hfresh _ t ht
    cases hq'.symm.trans hphase
    rw [hdelivered]
    rfl

namespace Within

theorem rests (h : Within program phases signal ms held g ring)
    (hr : Reference program phases signal ms held g) (hs : ring[i]? = some s) :
    ∃ b, ms[i]? = some b := by
  have hi := (List.getElem?_eq_some_iff.1 hs).1
  rw [h.length, ← hr.balanced.length] at hi
  exact ⟨_, List.getElem?_eq_getElem hi⟩

/-- No step fails, and none takes an amplifier further than in the loop. -/
theorem step_ok (h : Within program phases signal ms held g ring)
    (hr : Reference program phases signal ms held g) (hs : ring[i]? = some s)
    (hrun : s.machine.IsRunning) :
    ∃ status n, Machine.step s.machine = .ok status n ∧ n.counters.steps ≤ stepsOf ms i := by
  obtain ⟨b, hb⟩ := h.rests hr hs
  obtain ⟨d, handed, r, hrest, -⟩ := hr.rests hb
  exact (h.bounded i s hs).step hrest hrun

theorem step (h : Within program phases signal ms held g ring)
    (hr : Reference program phases signal ms held g) (hm : move ring (.step i) = some ring') :
    Within program phases signal ms held g ring' := by
  obtain ⟨hlen, s, hs, hrun, hmoved⟩ := move_step_cases hm
  refine ⟨hlen.trans h.length, fun j t' ht' => ?_, fun j t' u' phase ht' hu' hphase => ?_⟩
  · obtain ⟨t, ht, rfl⟩ := hmoved j t' ht'
    split
    · next hij =>
      subst hij
      cases hs.symm.trans ht
      obtain ⟨status, n, hn, hsteps⟩ := h.step_ok hr hs hrun
      have hb := h.bounded i s hs
      refine ⟨?_, ?_, ?_⟩
      · show Replays program (s.history ++ [s.machine]) s.machine.after
        rw [after_of_ok hn]
        exact hb.replays.step hn
      · show s.step.delivered <+: _
        rw [Station.delivered_step]
        exact hb.delivered
      · show s.machine.after.counters.steps ≤ _
        rw [after_of_ok hn]
        exact hsteps
    · exact h.bounded j t ht
  · obtain ⟨t, ht, rfl⟩ := hmoved j t' ht'
    obtain ⟨u, hu, rfl⟩ := hmoved _ u' hu'
    have hchannel := h.channel j t u phase ht hu hphase
    have hdelivered :
        (if i = (j + 1) % phases.length then u.step else u).delivered = u.delivered := by
      split
      · exact Station.delivered_step
      · rfl
    rw [hdelivered]
    split
    · rw [Station.sent_step, Station.outputs_step, ← List.append_assoc, hchannel, List.append_assoc]
    · exact hchannel

theorem pass (h : Within program phases signal ms held g ring)
    (hr : Reference program phases signal ms held g) (hm : move ring (.pass i) = some ring') :
    Within program phases signal ms held g ring' := by
  obtain ⟨hlen, s, v, rest, hs, hv, hmoved⟩ := move_pass_cases hm
  rw [h.length] at hmoved
  have hi : i < phases.length := h.length ▸ (List.getElem?_eq_some_iff.1 hs).1
  refine ⟨hlen.trans h.length, fun j t' ht' => ?_, fun j t' u' phase ht' hu' hphase => ?_⟩
  · obtain ⟨t, ht, htt⟩ := hmoved j t' ht'
    have hb := h.bounded j t ht
    refine ⟨htt.replays program hb.replays, ?_, htt.steps ▸ hb.steps⟩
    show t'.delivered <+: _
    rw [htt.delivered]
    split
    · next hij =>
      -- The value was sent by an amplifier that came no further than in the loop.
      subst hij
      obtain ⟨b, hbi⟩ := h.rests hr hs
      obtain ⟨d, handed, r, hrest, -, ho⟩ := hr.rests hbi
      have hsent := (h.bounded i s hs).prefix_outputs hrest
      have hphase := List.getElem?_eq_getElem (Nat.mod_lt (i + 1) (Nat.zero_lt_of_lt hi))
      have hchannel := h.channel i s t _ hs ht hphase
      rw [ho] at hsent
      rw [hr.stream_next hbi hphase]
      refine List.IsPrefix.trans ?_ ((List.prefix_append_right_inj _).2 hsent)
      rw [hchannel, hv]
      exact ⟨rest, List.append_assoc ..⟩
    · rw [List.append_nil]
      exact hb.delivered
  · obtain ⟨t, ht, htt⟩ := hmoved j t' ht'
    obtain ⟨u, hu, huu⟩ := hmoved _ u' hu'
    have hj : j < phases.length := h.length ▸ (List.getElem?_eq_some_iff.1 ht).1
    have hchannel := h.channel j t u phase ht hu hphase
    rw [htt.history, hchannel, huu.delivered, htt.outputs]
    by_cases hij : i = j
    · subst hij
      cases hs.symm.trans ht
      rw [if_pos rfl, if_pos rfl, hv, List.append_assoc]
      rfl
    · have hne : (i + 1) % phases.length ≠ (j + 1) % phases.length := fun heq =>
        hij (succ_mod_injective hi hj heq)
      rw [if_neg hij, if_neg hne, List.append_nil]

/-- The invariant holds after any schedule. -/
theorem moves {schedule : List Move} (h : Within program phases signal ms held g ring)
    (hr : Reference program phases signal ms held g)
    (hm : Circuit.moves ring schedule = some ring') :
    Within program phases signal ms held g ring' := by
  induction schedule generalizing ring with
  | nil =>
    cases hm
    exact h
  | cons m schedule ih =>
    obtain ⟨ring'', hm', hrest⟩ := Option.bind_eq_some_iff.1 hm
    cases m with
    | step i => exact ih (h.step hr hm') hrest
    | pass i => exact ih (h.pass hr hm') hrest

end Within

/-! ## What all schedules lead to -/

/-- An amplifier that has come to the same end as in the loop, where it is `b`,
with the history `h`. -/
structure EndsLike (s : Station) (b : Machine) (h : List Machine) : Prop where
  memory : s.machine.memory = b.memory
  pc : s.machine.pc = b.pc
  base : s.machine.base = b.base
  steps : s.machine.counters.steps = b.counters.steps
  taken : taken s.history = taken h
  sent : sent s.history = sent h

/-- An amplifier that has halted has come to the same end as in the loop. -/
theorem Within.endsLike (h : Within program phases signal ms held g ring)
    (hr : Reference program phases signal ms held g) (hs : ring[i]? = some s)
    (hb : ms[i]? = some b) (hstop : s.machine.status = .stopped) :
    EndsLike s b (g i) ∧ b.status = .stopped := by
  obtain ⟨d, handed, r, hrest, hbr, hbo⟩ := hr.rests hb
  obtain ⟨hsteps, d', handed', rest, hxs, hsr, hso⟩ := (h.bounded i s hs).of_stopped hrest hstop
  have htaken : taken s.history ++ r.inputs.toList = taken (g i) ++ r.inputs.toList := by
    simp only [stream, hb, Option.elim_some, delivered] at hxs
    rw [hsr.inputs, ← List.append_assoc, ← hxs, ← hsr.inputs, hbr.inputs, ← List.append_assoc]
  refine ⟨⟨hsr.memory.trans hbr.memory.symm, hsr.pc.trans hbr.pc.symm, hsr.base.trans hbr.base.symm,
    ?_, List.append_cancel_right htaken, hso.symm.trans hbo⟩,
    hbr.stopped_iff.2 (hsr.stopped_iff.1 hstop)⟩
  rw [hsteps, stepsOf, hb]
  rfl

/-- A ring in which no more has happened than in a feedback loop that has left
`next`, with the histories `g`, and has returned `v`. -/
structure Follows (ring : List Station) (next : Circuit) (g : Nat → List Machine) (v : Int) :
    Prop where
  length : ring.length = next.amplifiers.length
  /-- No step fails. -/
  sound : ∀ s ∈ ring, s.machine.IsRunning → ∃ status n, Machine.step s.machine = .ok status n
  steps : ∀ (i : Nat) (s : Station) (b : Machine), ring[i]? = some s →
    next.amplifiers[i]? = some b → s.machine.counters.steps ≤ b.counters.steps
  ends : (∀ s ∈ ring, s.machine.status = .stopped) → ∀ (i : Nat) (s : Station) (b : Machine),
    ring[i]? = some s → next.amplifiers[i]? = some b → EndsLike s b (g i)
  last : (∀ s ∈ ring, s.machine.status = .stopped) → ∀ s, ring.getLast? = some s →
    (sent s.history).getLast? = some v

/-- Whatever the schedule: where the feedback loop returns a value, no step
fails and no amplifier comes further than in the loop, and if all have halted
they have come to the same end, with the same last value. Where the loop ends in
a deadlock, no schedule has all amplifiers halt. -/
theorem feedback_independent_of_schedule (program phases : List Int) (signal : Int)
    (journal : Journal) (fuel : Nat) {circuit : Circuit}
    (hb : build program phases journal = .ok circuit) (schedule : List Move)
    {ring : List Station} (hs : moves (circuit.inject signal).stations schedule = some ring) :
    (∀ v next, runFeedback fuel circuit signal = some (.ok v, next) →
      Follows ring next (feedbackHistory fuel fuel (circuit.inject signal, [])) v) ∧
    (∀ next, runFeedback fuel circuit signal = some (.error .deadlocked, next) →
      ∃ s ∈ ring, s.machine.IsRunning) := by
  refine ⟨fun v next h => ?_, fun next h => ?_⟩
  · obtain ⟨⟨held, hr⟩, -⟩ := reference_of_ok hb h
    have hw := (within_start hb hr).moves hr hs
    have hlen := hw.length.trans hr.balanced.length.symm
    refine ⟨hlen, fun s hmem hrun => ?_, fun i s b hs hb => ?_, fun hall i s b hs hb => ?_,
      fun hall s hs => ?_⟩
    · obtain ⟨i, hi⟩ := List.getElem?_of_mem hmem
      obtain ⟨status, n, hn, -⟩ := hw.step_ok hr hi hrun
      exact ⟨status, n, hn⟩
    · have hsteps := (hw.bounded i s hs).steps
      simp only [stepsOf, hb] at hsteps
      exact hsteps
    · exact (hw.endsLike hr hs hb (hall s (List.mem_of_getElem? hs))).1
    · rw [List.getLast?_eq_getElem?] at hs
      obtain ⟨b, hb'⟩ := hw.rests hr hs
      rw [(hw.endsLike hr hs hb' (hall s (List.mem_of_getElem? hs))).1.sent, hw.length]
      exact getLast?_sent_of_ok hb h
  · obtain ⟨hr, b, hb', hwait⟩ := reference_of_deadlock hb h
    have hw := (within_start hb hr).moves hr hs
    obtain ⟨i, hi⟩ := List.getElem?_of_mem hb'
    have hlt := (List.getElem?_eq_some_iff.1 hi).1
    rw [hr.balanced.length, ← hw.length] at hlt
    refine ⟨ring[i], List.getElem_mem hlt, fun hstop => ?_⟩
    have hbs := (hw.endsLike hr (List.getElem?_eq_getElem hlt) hi hstop).2
    rw [hwait] at hbs
    cases hbs

/-- A schedule in which the second of two amplifiers goes first. -/
theorem feedback_independent_of_schedule_repeaters : ∃ circuit next ring,
    build [3, 0, 3, 1, 4, 1, 99] [5, 6] (.empty false) = .ok circuit ∧
    runFeedback 9 circuit 7 = some (.ok 7, next) ∧
    moves (circuit.inject 7).stations [.step 1, .step 1, .step 0, .step 0, .step 0, .pass 0,
      .step 1, .step 0, .step 1, .step 1, .pass 1] = some ring ∧
    (∀ s ∈ ring, s.machine.status = .stopped) ∧
    Follows ring next (feedbackHistory 9 9 (circuit.inject 7, [])) 7 := by
  obtain ⟨circuit, hb⟩ : ∃ circuit,
      build [3, 0, 3, 1, 4, 1, 99] [5, 6] (.empty false) = .ok circuit := ⟨_, rfl⟩
  have hv : (runFeedback 9 circuit 7).map (·.1.toOption) = some (some 7) := by
    cases hb
    decide +kernel
  have hs : (moves (circuit.inject 7).stations [.step 1, .step 1, .step 0, .step 0, .step 0,
      .pass 0, .step 1, .step 0, .step 1, .step 1, .pass 1]).map
        (fun ring => ring.all (·.machine.status = .stopped)) = some true := by
    cases hb
    decide +kernel
  obtain ⟨next, hnext⟩ := exists_of_toOption hv
  obtain ⟨ring, hring, hall⟩ := Option.map_eq_some_iff.1 hs
  refine ⟨circuit, next, ring, hb, hnext, hring, ?_, ?_⟩
  · simpa using hall
  · exact (feedback_independent_of_schedule _ _ 7 _ 9 hb _ hring).1 7 next hnext

end Circuit

end Wordcode
