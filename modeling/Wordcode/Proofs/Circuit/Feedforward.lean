import Wordcode.Proofs.Circuit.Chain
import Wordcode.Proofs.Circuit.Deadlock
import Wordcode.Proofs.Machine.Drivers

/-!
# Circuits that need no feedback

An amplifier that does not come to wait for input is driven alike by a chain and
by a feedback loop: to its halt, or to its failure (`serve_of_runAmplifier`). So
if no amplifier of a chain comes to wait, the first round of a feedback loop is
the sweep of the chain. It is the last round too, as every amplifier has halted
then or one has failed (`chain_is_one_round`).
-/

namespace Wordcode

open Machine

namespace Circuit

variable {fuel : Nat} {program phases values : List Int} {signal : Int} {journal : Journal}
  {m n : Machine} {ms ns : List Machine} {circuit next : Circuit} {p : Bool}
  {r : Except Interrupt Swept} {swept : Swept} {result : Except CircuitError Int}

/-! ## Amplifiers -/

/-- A run that does not come to wait is a service, which looks once more whether
the machine has halted. -/
theorem loop_serviceRound_of_run {r : Except Interrupt Unit} (hm : m.IsRunning)
    (h : m.run fuel = some (r, n)) (hr : ∀ a, r ≠ .error (.blocked a)) (p : Bool) :
    loop serviceRound (fuel + 1) (m, p) = some (r.map fun _ => true, n) := by
  induction fuel generalizing m p with
  | zero => cases h
  | succ fuel ih =>
    cases hs : step m with
    | error f t =>
      have hround : runRound m = .done (.error (.failed f), t) := by simp only [runRound, hs]
      have hservice : serviceRound (m, p) = .done (.error (.failed f), t) := by
        simp only [serviceRound, if_pos hm, tryStep_of_error hs]
      cases (loop_succ_of_done hround).symm.trans h
      exact loop_succ_of_done hservice
    | ok s t =>
      have hservice (hw : s ≠ .waiting) : serviceRound (m, p) = .again (t, true) := by
        simp only [serviceRound, if_pos hm, tryStep_of_ok hs hw]
      cases s with
      | running =>
        rw [Machine.run, loop_succ_of_again (runRound_of_running hs)] at h
        rw [loop_succ_of_again (hservice (by decide))]
        exact ih (running_of_step_running hs) h true
      | waiting =>
        have hround : runRound m = .done (.error (.blocked t.pc), t) := by simp only [runRound, hs]
        cases (loop_succ_of_done hround).symm.trans h
        exact absurd rfl (hr _)
      | stopped =>
        have hround : runRound m = .done (.ok (), t) := by simp only [runRound, hs]
        cases (loop_succ_of_done hround).symm.trans h
        have hstop : serviceRound (n, true) = .done (.ok true, n) := by
          have hn : ¬ n.IsRunning := fun hrun => hrun (status_eq_of_step hs)
          simp only [serviceRound, if_neg hn]
        rw [loop_succ_of_again (hservice (by decide)), loop_succ_of_done hstop]
        rfl

theorem serve_of_runAmplifier {r : Except Interrupt Bool} (hm : m.IsRunning)
    (h : runAmplifier fuel m = some (r, n)) (hr : ∀ a, r ≠ .error (.blocked a)) :
    serve (fuel + 1) m = some (r, n) := by
  obtain ⟨⟨e | ⟨⟩, t⟩, ht, hn⟩ := Option.map_eq_some_iff.1 h
  · cases hn
    exact loop_serviceRound_of_run hm ht (fun a ha => hr a (by cases ha; rfl)) false
  · cases hn
    exact loop_serviceRound_of_run hm ht nofun false

/-- An amplifier that was run to its end has halted. -/
theorem stopped_of_runAmplifier (h : runAmplifier fuel m = some (.ok p, n)) :
    n.status = .stopped := by
  obtain ⟨⟨e | ⟨⟩, t⟩, ht, hn⟩ := Option.map_eq_some_iff.1 h
  · cases hn
  · cases hn
    obtain ⟨k, t, -, -, hr, -⟩ := exists_stateAfter_of_loop ht
    unfold runRound at hr
    split at hr
    · cases hr
    · next hs =>
      cases hr
      exact status_eq_of_step hs
    · cases hr
    · cases hr

/-! ## Sweeps -/

/-- A chain in which no amplifier comes to wait is swept as in a feedback loop. -/
theorem sweep_serve_of_chain (hms : ∀ m ∈ ms, m.IsRunning)
    (h : sweep (runAmplifier fuel) ms values = some (r, ns))
    (hr : ∀ a, r ≠ .error (.blocked a)) :
    sweep (serve (fuel + 1)) ms values = some (r, ns) := by
  induction ms generalizing values r ns with
  | nil => exact h
  | cons m rest ih =>
    have hm : (m.addInputs values).IsRunning := hms m List.mem_cons_self
    cases hd : runAmplifier fuel (m.addInputs values) with
    | none =>
      rw [sweep_cons_of_none hd] at h
      cases h
    | some x =>
      obtain ⟨e | p, t⟩ := x
      · rw [sweep_cons_of_error hd] at h
        cases h
        exact sweep_cons_of_error (serve_of_runAmplifier hm hd fun a ha => hr a (by cases ha; rfl))
      · rw [sweep_cons_of_ok hd] at h
        obtain ⟨⟨r', ns'⟩, hrest, hp⟩ := Option.map_eq_some_iff.1 h
        cases hp
        have hr' : ∀ a, r' ≠ .error (.blocked a) := by
          rintro a rfl
          exact hr a rfl
        rw [sweep_cons_of_ok (serve_of_runAmplifier hm hd nofun),
          ih (fun m hm => hms m (List.mem_cons_of_mem _ hm)) hrest hr']
        rfl

/-- A chain that comes to its end has run every amplifier to its halt. -/
theorem stopped_of_chain (h : sweep (runAmplifier fuel) ms values = some (.ok swept, ns)) :
    ∀ n ∈ ns, n.status = .stopped := by
  induction ms generalizing values swept ns with
  | nil =>
    rw [sweep_nil] at h
    cases h
    exact List.forall_mem_nil _
  | cons m rest ih =>
    cases hd : runAmplifier fuel (m.addInputs values) with
    | none =>
      rw [sweep_cons_of_none hd] at h
      cases h
    | some x =>
      obtain ⟨e | p, t⟩ := x
      · rw [sweep_cons_of_error hd] at h
        cases h
      · rw [sweep_cons_of_ok hd] at h
        obtain ⟨⟨r' | swept', ns'⟩, hrest, hp⟩ := Option.map_eq_some_iff.1 h
        · cases hp
        · cases hp
          have ht : t.status = .stopped := stopped_of_runAmplifier hd
          exact List.forall_mem_cons.2 ⟨ht, ih hrest⟩

/-! ## Rounds -/

/-- A value that is queued at the first amplifier is as good as one held for it. -/
theorem sweep_inject {drive : Drive} (hne : circuit.amplifiers ≠ []) :
    sweep drive (circuit.inject signal).amplifiers [] =
      sweep drive circuit.amplifiers [signal] := by
  obtain ⟨first, rest, hams⟩ := List.exists_cons_of_ne_nil hne
  simp only [inject, hams, sweep, addInputs, Queue.extend_nil]

theorem exists_running_inject (hne : circuit.amplifiers ≠ [])
    (h : ∀ m ∈ circuit.amplifiers, m.IsRunning) :
    ∃ m ∈ (circuit.inject signal).amplifiers, m.IsRunning := by
  obtain ⟨first, rest, hams⟩ := List.exists_cons_of_ne_nil hne
  rw [hams] at h
  refine ⟨first.addInputs [signal], ?_, h first List.mem_cons_self⟩
  simp only [inject, hams, List.mem_cons_self]

theorem exists_round_of_sweep {held : List Int}
    (hs : sweep (serve fuel) circuit.amplifiers held = some (r, ms)) :
    ∃ result next, circuit.round fuel held = some (result, next) := by
  simp only [round, pass, hs, Option.bind_eq_bind, Option.bind_some]
  cases r with
  | error e => exact ⟨_, _, rfl⟩
  | ok swept =>
    simp only [Option.pure_def, Option.bind_some]
    split
    · exact ⟨_, _, rfl⟩
    · exact ⟨_, _, rfl⟩

theorem close_fst : circuit.close.1 = circuit.signal.elim (.error .silent) .ok := by
  unfold close
  cases circuit.signal <;> rfl

/-- A loop ends in a round in which an amplifier fails. -/
theorem runFeedback_of_sweep_error {e : Interrupt}
    (hrun : ∃ m ∈ (circuit.inject signal).amplifiers, m.IsRunning)
    (hs : sweep (serve fuel) (circuit.inject signal).amplifiers [] = some (.error e, ns)) :
    ∃ bound last,
      (∀ n, bound ≤ n → circuit.runFeedback n signal = some (chainResult (.error e), last)) ∧
      last.rounds = (circuit.inject signal).rounds + 1 ∧
      last.amplifiers = ns.map (·.takeJournal.2) := by
  obtain ⟨result, last, hround⟩ := exists_round_of_sweep hs
  obtain ⟨hc, hams, hrounds⟩ := round_of_sweep hs hround
  cases hc with
  | interrupted =>
    have hend := feedbackRound_of_round_error hrun hround
    obtain ⟨bound, hbound⟩ := exists_runFeedback (@stateAfter_zero _ _ (feedbackRound fuel) _) hend
    exact ⟨bound, last, hbound, hrounds, hams⟩

/-- A loop whose amplifiers have halted in its first round ends with the last
value that was handed out. -/
theorem runFeedback_of_sweep_ok (hrun : ∃ m ∈ (circuit.inject signal).amplifiers, m.IsRunning)
    (hs : sweep (serve fuel) (circuit.inject signal).amplifiers [] = some (.ok swept, ns))
    (hstop : ∀ n ∈ ns, n.status = .stopped) (hsignal : circuit.signal = none) :
    ∃ bound last,
      (∀ n, bound ≤ n → circuit.runFeedback n signal = some (chainResult (.ok swept), last)) ∧
      last.rounds = (circuit.inject signal).rounds + 1 ∧
      last.amplifiers = ns.map (·.takeJournal.2) := by
  obtain ⟨result, last, hround⟩ := exists_round_of_sweep hs
  obtain ⟨hc, hams, hrounds⟩ := round_of_sweep hs hround
  have hlast : ∀ m ∈ last.amplifiers, m.status = .stopped := by
    intro m hm
    rw [hams] at hm
    obtain ⟨n, hn, rfl⟩ := List.mem_map.1 hm
    exact hstop n hn
  cases hc with
  | deadlocked _ hw =>
    obtain ⟨m, hm, hwait⟩ := hw
    cases (hlast m hm).symm.trans hwait
  | passed hsig =>
    have hfirst := stateAfter_succ_of_again (k := 0) (feedbackRound_of_round_ok hrun hround)
    have hend := @feedbackRound_of_stopped fuel swept.outputs last hlast
    obtain ⟨bound, hbound⟩ := exists_runFeedback (hfirst.trans stateAfter_zero) hend
    rw [signal_inject, hsignal, Option.or_none] at hsig
    obtain ⟨hr, ha⟩ := rounds_close (rfl : last.close = (last.close.1, last.close.2))
    refine ⟨bound, last.close.2, fun n hn => ?_, hr.trans hrounds, ha.trans hams⟩
    rw [hbound n hn, chainResult, ← hsig, ← close_fst]

/-- If a chain does not come to wait for input, then a feedback loop with the
same amplifiers ends with the same result after one round, and leaves the same
amplifiers. -/
theorem chain_is_one_round (hb : build program phases journal = .ok circuit)
    (hc : circuit.runChain fuel signal = some (result, next))
    (hr : ∀ address, result ≠ .error (.interrupted (.blocked address))) :
    ∃ bound last, (∀ n, bound ≤ n → circuit.runFeedback n signal = some (result, last)) ∧
      last.rounds = 1 ∧ last.amplifiers = next.amplifiers := by
  obtain ⟨hne, hsignal, hams⟩ := build_eq_ok hb
  have hne' : circuit.amplifiers ≠ [] := by
    rw [hams]
    exact fun h => hne (List.map_eq_nil_iff.1 h)
  have hfresh : ∀ m ∈ circuit.amplifiers, m.IsRunning := by
    intro m hm
    rw [hams] at hm
    obtain ⟨phase, -, rfl⟩ := List.mem_map.1 hm
    exact nofun
  have hrounds : (circuit.inject signal).rounds = 0 := rounds_inject hb
  cases hsweep : sweep (runAmplifier fuel) circuit.amplifiers [signal] with
  | none =>
    rw [runChain_of_sweep_none hsweep] at hc
    cases hc
  | some x =>
    obtain ⟨r, ns⟩ := x
    obtain ⟨next', hnext, hnext'⟩ := runChain_of_sweep hsweep
    cases hnext.symm.trans hc
    have hserve : sweep (serve (fuel + 1)) (circuit.inject signal).amplifiers [] =
        some (r, ns) := by
      rw [sweep_inject hne']
      exact sweep_serve_of_chain hfresh hsweep fun a ha => hr a (by rw [ha]; rfl)
    have hrun : ∃ m ∈ (circuit.inject signal).amplifiers, m.IsRunning :=
      exists_running_inject hne' hfresh
    rw [hnext', show 1 = (circuit.inject signal).rounds + 1 by rw [hrounds]]
    cases r with
    | error e => exact runFeedback_of_sweep_error hrun hserve
    | ok swept => exact runFeedback_of_sweep_ok hrun hserve (stopped_of_chain hsweep) hsignal

/-- Two amplifiers that output their phase and one value more, where the second
leaves the signal untaken, and two of which the second fails. -/
theorem chain_is_one_round_echo :
    (∃ circuit next bound last,
      build [3, 9, 3, 10, 4, 9, 4, 10, 99, 0, 0] [5, 6] (.empty false) = .ok circuit ∧
      circuit.runChain 9 7 = some (.ok 5, next) ∧
      (∀ n, bound ≤ n → circuit.runFeedback n 7 = some (.ok 5, last)) ∧ last.rounds = 1 ∧
      last.amplifiers = next.amplifiers) ∧
    ∃ circuit next bound last, build [3, 2, 0, 7, 99] [104, 42] (.empty false) = .ok circuit ∧
      circuit.runChain 9 1 = some (.error (.interrupted (.failed (.fault
        (.badInstruction 42 2 .unknownOperation)))), next) ∧
      (∀ n, bound ≤ n → circuit.runFeedback n 1 = some (.error (.interrupted (.failed (.fault
        (.badInstruction 42 2 .unknownOperation)))), last)) ∧ last.rounds = 1 ∧
      last.amplifiers = next.amplifiers := by
  constructor
  · obtain ⟨circuit, hb⟩ : ∃ circuit,
        build [3, 9, 3, 10, 4, 9, 4, 10, 99, 0, 0] [5, 6] (.empty false) = .ok circuit := ⟨_, rfl⟩
    have hv : (circuit.runChain 9 7).map (·.1.toOption) = some (some 5) := by
      cases hb
      decide +kernel
    obtain ⟨⟨_ | v, next⟩, hc, hr⟩ := Option.map_eq_some_iff.1 hv <;> cases hr
    obtain ⟨bound, last, hlast⟩ := chain_is_one_round hb hc nofun
    exact ⟨circuit, next, bound, last, hb, hc, hlast⟩
  · obtain ⟨circuit, hb⟩ : ∃ circuit,
        build [3, 2, 0, 7, 99] [104, 42] (.empty false) = .ok circuit := ⟨_, rfl⟩
    have hv : (circuit.runChain 9 1).map (failure? ·.1) = some (some (.interrupted (.failed (.fault
        (.badInstruction 42 2 .unknownOperation))))) := by
      cases hb
      decide +kernel
    obtain ⟨⟨result, next⟩, hc, hr⟩ := Option.map_eq_some_iff.1 hv
    cases failure?_eq_some_iff.1 hr
    obtain ⟨bound, last, hlast⟩ := chain_is_one_round hb hc nofun
    exact ⟨circuit, next, bound, last, hb, hc, hlast⟩

end Circuit

end Wordcode
