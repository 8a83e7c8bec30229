import Wordcode.Calling.Basic
import Wordcode.Circuit.Search
import Wordcode.Proofs.Circuit.Conservation
import Wordcode.Proofs.Machine.Replay

/-!
# Chains as calls

The amplifiers of a chain have nothing in common but the program. So passing a
signal through them comes to calling the program once for each phase, every time
with the phase and with what the call before has output (`Relays`).

Behind amplifiers whose calls have halted the sweep goes on as if it had started
there (`exists_sweep_of_relays`). What is left is where it ends: behind the last
amplifier, at one whose call fails, or at one whose call goes on for ever
(`chain_relays_calls`).
-/

namespace Wordcode

/-- What a call of a program outputs, or why it fails. There is neither if it would
go on after `fuel` steps. -/
def outputsOf (fuel : Nat) (program inputs : List Int) : Option (Except CallError (List Int)) :=
  ((call fuel program inputs).run.run (.empty false)).map (·.1)

/-- What a call makes of a run. -/
def callResult : Except Interrupt Unit × Machine → Except CallError (List Int)
  | (.ok (), m) => .ok m.outputs.toList
  | (.error interrupt, _) => .error (.interrupted interrupt)

open Machine

variable {d i k fuel : Nat} {program phases inputs values : List Int} {outs : Nat → List Int}
  {m a n : Machine} {ms : List Machine} {verbose p q : Bool} {signal phase : Int} {e : CallError}
  {interrupt : Interrupt} {circuit next : Circuit} {r : Except Interrupt Circuit.Swept}

/-! ## Calls and runs -/

/-- A machine that trails another, and is left nothing to be given, runs as it does. -/
theorem Machine.Trails.map_run (h : Trails d [] [] m a) :
    (m.run fuel).map callResult = (a.run fuel).map callResult := by
  induction fuel generalizing m a with
  | zero => rfl
  | succ fuel ih =>
    by_cases hm : m.Starves
    · obtain ⟨n, b, hn, hb, hnb⟩ := h.step_of_starves_both hm
      simp only [Machine.run, loop, runRound, hn, hb, Option.map_some, callResult, hnb.pc]
    cases hs : step m with
    | error f n =>
      obtain ⟨b, hb, -⟩ := h.step_of_error hs
      simp only [Machine.run, loop, runRound, hs, hb, Option.map_some, callResult]
    | ok s n =>
      obtain ⟨b, hb, -, hnb⟩ := h.step_of_ok hm hs
      cases s with
      | waiting => exact absurd rfl (ne_waiting_of_not_starves hm hs)
      | running =>
        simp only [Machine.run, loop, runRound, hs, hb]
        exact ih hnb
      | stopped =>
        simp only [Machine.run, loop, runRound, hs, hb, Option.map_some, callResult, hnb.outputs,
          List.nil_append]

/-- What is reported makes no difference to a call. -/
theorem outputsOf_eq_map (verbose : Bool) :
    outputsOf fuel program inputs = ((load program inputs verbose).run fuel).map callResult := by
  have hload : Trails 0 [] [] (load program inputs verbose) (load program (inputs ++ []) false) :=
    trails_load
  rw [hload.map_run, List.append_nil]
  simp only [outputsOf, call, halted, ExceptT.run_bind, StateT.run_bind, ExceptT.run_mk]
  have hstart : { load program inputs (Journal.empty false).verbose with journal := .empty false } =
      load program inputs false := rfl
  simp only [StateT.run, hstart]
  rcases (load program inputs false).run fuel with _ | ⟨_ | ⟨⟩, m⟩
  · rfl
  · rfl
  · rfl

namespace Circuit

/-! ## Amplifiers and calls -/

theorem runAmplifier_of_ok (verbose : Bool)
    (h : outputsOf fuel program (phase :: values) = some (.ok inputs)) :
    ∃ n, runAmplifier fuel ((load program [phase] verbose).addInputs values) = some (.ok true, n) ∧
      n.outputs.toList = inputs := by
  rw [outputsOf_eq_map verbose] at h
  obtain ⟨⟨_ | ⟨⟩, n⟩, hn, ho⟩ := Option.map_eq_some_iff.1 h
  · cases ho
  · refine ⟨n, ?_, Except.ok.inj ho⟩
    rw [addInputs_load]
    exact Option.map_eq_some_iff.2 ⟨_, hn, rfl⟩

theorem runAmplifier_of_error (verbose : Bool)
    (h : outputsOf fuel program (phase :: values) = some (.error e)) :
    ∃ interrupt n, e = .interrupted interrupt ∧
      runAmplifier fuel ((load program [phase] verbose).addInputs values) =
        some (.error interrupt, n) := by
  rw [outputsOf_eq_map verbose] at h
  obtain ⟨⟨interrupt | ⟨⟩, n⟩, hn, ho⟩ := Option.map_eq_some_iff.1 h
  · refine ⟨interrupt, n, (Except.error.inj ho).symm, ?_⟩
    rw [addInputs_load]
    exact Option.map_eq_some_iff.2 ⟨_, hn, rfl⟩
  · cases ho

theorem runAmplifier_of_none (verbose : Bool)
    (h : outputsOf fuel program (phase :: values) = none) :
    runAmplifier fuel ((load program [phase] verbose).addInputs values) = none := by
  rw [outputsOf_eq_map verbose, Option.map_eq_none_iff] at h
  rw [addInputs_load]
  exact Option.map_eq_none_iff.2 h

/-! ## Sweeps over fresh amplifiers -/

/-- Amplifiers that have not executed anything. -/
def fresh (program phases : List Int) (verbose : Bool) : List Machine :=
  phases.map fun phase => load program [phase] verbose

/-- Called for one phase after another, `k` times, the program halts each time: its
inputs are the phase and the outputs of the call before, and `outs` counts the
outputs from the signal on. -/
structure Relays (fuel : Nat) (program phases : List Int) (signal : Int) (k : Nat)
    (outs : Nat → List Int) : Prop where
  start : outs 0 = [signal]
  next : ∀ i phase, i < k → phases[i]? = some phase →
    outputsOf fuel program (phase :: outs i) = some (.ok (outs (i + 1)))

/-- The calls halt up to the last phase, or up to one for which the call does not. -/
theorem exists_relays (fuel : Nat) (program phases : List Int) (signal : Int) :
    ∃ outs i, Relays fuel program phases signal i outs ∧
      (i = phases.length ∨ ∃ phase, phases[i]? = some phase ∧
        ∀ values, outputsOf fuel program (phase :: outs i) ≠ some (.ok values)) := by
  -- The induction is on how many phases have been looked at.
  suffices h : ∀ k, k ≤ phases.length → (∃ outs, Relays fuel program phases signal k outs) ∨
      ∃ outs i, Relays fuel program phases signal i outs ∧ ∃ phase, phases[i]? = some phase ∧
        ∀ values, outputsOf fuel program (phase :: outs i) ≠ some (.ok values) by
    obtain ⟨outs, hr⟩ | ⟨outs, i, hr, hi⟩ := h phases.length (Nat.le_refl _)
    · exact ⟨outs, _, hr, .inl rfl⟩
    · exact ⟨outs, i, hr, .inr hi⟩
  intro k hk
  induction k with
  | zero => exact .inl ⟨fun _ => [signal], rfl, fun i _ hi => absurd hi (Nat.not_lt_zero i)⟩
  | succ k ih =>
    obtain ⟨outs, hr⟩ | hfails := ih (Nat.le_of_succ_le hk)
    · by_cases hok : ∃ values, outputsOf fuel program (phases[k] :: outs k) = some (.ok values)
      · obtain ⟨values, hv⟩ := hok
        refine .inl ⟨fun i => if i ≤ k then outs i else values, hr.start, fun i phase hi hp => ?_⟩
        obtain hlt | rfl := Nat.lt_succ_iff_lt_or_eq.1 hi
        · simp only [Nat.le_of_lt hlt, Nat.succ_le_of_lt hlt, if_true]
          exact hr.next i phase hlt hp
        · simp only [Nat.le_refl, Nat.not_succ_le_self, if_true, if_false,
            ← (List.getElem?_eq_some_iff.1 hp).2]
          exact hv
      · exact .inr ⟨outs, k, hr, phases[k], List.getElem?_eq_getElem hk,
          fun values hv => hok ⟨values, hv⟩⟩
    · exact .inr hfails

theorem sweep_cons_of_none {drive : Drive} (hd : drive (m.addInputs values) = none) :
    sweep drive (m :: ms) values = none := by
  simp only [sweep, hd, Option.bind_eq_bind, Option.bind_none]

theorem resultFrom_false : resultFrom false r = r := by
  cases r <;> rfl

theorem resultFrom_resultFrom : resultFrom p (resultFrom q r) = resultFrom (p || q) r := by
  cases r with
  | error e => rfl
  | ok swept => simp only [resultFrom, Except.map, Bool.or_assoc]

/-- Behind amplifiers whose calls have halted a sweep goes on with what the last of
them has output. -/
theorem exists_sweep_of_relays (hk : k ≤ phases.length)
    (h : ∀ i phase, i < k → phases[i]? = some phase →
      outputsOf fuel program (phase :: outs i) = some (.ok (outs (i + 1)))) :
    ∃ p ms, ms.length = k ∧
      sweep (runAmplifier fuel) (fresh program phases verbose) (outs 0) =
        (sweep (runAmplifier fuel) (fresh program (phases.drop k) verbose) (outs k)).map
          fun (r, rest) => (resultFrom p r, ms ++ rest) := by
  induction k generalizing phases outs with
  | zero =>
    refine ⟨false, [], rfl, ?_⟩
    simp only [resultFrom_false, List.nil_append, List.drop_zero]
    exact Option.map_id'.symm
  | succ k ih =>
    obtain ⟨phase, rest, rfl⟩ := List.exists_cons_of_length_pos (by omega : 0 < phases.length)
    obtain ⟨n, hn, ho⟩ := runAmplifier_of_ok verbose (h 0 phase (by omega) rfl)
    have hrest : ∀ i phase, i < k → rest[i]? = some phase →
        outputsOf fuel program (phase :: outs (i + 1)) = some (.ok (outs (i + 1 + 1))) :=
      fun i phase hi hp => h (i + 1) phase (by omega) hp
    obtain ⟨p, ms, hms, hsweep⟩ := ih (Nat.le_of_succ_le_succ hk) hrest
    refine ⟨true, { n with outputs := ∅ } :: ms, congrArg (· + 1) hms, ?_⟩
    calc
      _ = (sweep (runAmplifier fuel) (fresh program rest verbose) n.outputs.toList).map
            fun (r, ms) => (resultFrom true r, { n with outputs := ∅ } :: ms) :=
        sweep_cons_of_ok hn
      _ = _ := by
        rw [ho, hsweep, Option.map_map]
        simp only [Function.comp_def, resultFrom_resultFrom, Bool.true_or, List.cons_append,
          List.drop_succ_cons]

/-! ## Chains -/

/-- What a chain makes of the result of its sweep. -/
def chainResult : Except Interrupt Swept → Except CircuitError Int
  | .error interrupt => .error (.interrupted interrupt)
  | .ok swept => swept.outputs.getLast?.elim (.error .silent) .ok

theorem runChain_of_sweep
    (h : sweep (runAmplifier fuel) circuit.amplifiers [signal] = some (r, ms)) :
    ∃ next, circuit.runChain fuel signal = some (chainResult r, next) ∧
      next.amplifiers = ms.map (·.takeJournal.2) := by
  refine ⟨{ circuit with amplifiers := ms }.collectJournals, ?_, rfl⟩
  simp only [runChain, pass, h, Option.bind_eq_bind, Option.bind_some]
  cases r with
  | error interrupt => rfl
  | ok swept =>
    simp only [Option.pure_def, Option.bind_some, chainResult]
    cases swept.outputs.getLast? <;> rfl

theorem runChain_of_sweep_none
    (h : sweep (runAmplifier fuel) circuit.amplifiers [signal] = none) :
    circuit.runChain fuel signal = none := by
  simp only [runChain, pass, h, Option.bind_eq_bind, Option.bind_none]

theorem drop_fresh (h : phases[i]? = some phase) :
    fresh program (phases.drop i) verbose =
      load program [phase] verbose :: fresh program (phases.drop (i + 1)) verbose := by
  obtain ⟨hi, rfl⟩ := List.getElem?_eq_some_iff.1 h
  rw [List.drop_eq_getElem_cons hi]
  rfl

/-- Fresh amplifiers have nothing to report. -/
theorem map_takeJournal_fresh :
    (fresh program phases verbose).map (·.takeJournal.2) = fresh program phases verbose := by
  rw [fresh, List.map_map]
  rfl

theorem exists_build (hne : phases ≠ []) (journal : Journal) :
    ∃ circuit, build program phases journal = .ok circuit ∧
      circuit.amplifiers = fresh program phases journal.verbose := by
  cases phases with
  | nil => exact absurd rfl hne
  | cons phase phases => exact ⟨_, rfl, rfl⟩

theorem run_amplify_of_build {wiring : Wiring} {journal : Journal}
    (h : build program phases journal = .ok circuit) :
    (amplify fuel wiring program phases signal).run.run journal =
      (circuit.send fuel wiring signal).map fun p => (p.1, p.2.journal) := by
  unfold amplify
  simp only [ExceptT.run_mk, StateT.run, h]

/-- Sending a signal through a chain of fresh amplifiers comes to calls of the
program. If all of them halt, the result is the last value that the last of them
outputs, or that there is none. The first call that fails ends the chain with its
failure, and the amplifiers behind it have not executed anything. And if a call
goes on for ever, so does the chain. There is always one of these. -/
theorem chain_relays_calls (program phases : List Int) (signal : Int) (journal : Journal)
    (fuel : Nat) (hne : phases ≠ []) : ∃ circuit, build program phases journal = .ok circuit ∧
    CircuitError.silent.message = "Last amplifier produced no output" ∧
    (amplify fuel .chain program phases signal).run.run journal =
      (circuit.runChain fuel signal).map (fun (result, next) => (result, next.journal)) ∧
    (∀ outs, Relays fuel program phases signal phases.length outs → ∃ next,
      circuit.runChain fuel signal =
        some ((outs phases.length).getLast?.elim (.error .silent) .ok, next)) ∧
    (∀ outs i phase e, Relays fuel program phases signal i outs → phases[i]? = some phase →
      outputsOf fuel program (phase :: outs i) = some (.error e) →
      ∃ interrupt next, e = .interrupted interrupt ∧
        circuit.runChain fuel signal = some (.error (.interrupted interrupt), next) ∧
        next.amplifiers.drop (i + 1) = fresh program (phases.drop (i + 1)) journal.verbose) ∧
    (∀ outs i phase, Relays fuel program phases signal i outs → phases[i]? = some phase →
      outputsOf fuel program (phase :: outs i) = none → circuit.runChain fuel signal = none) ∧
    ∃ outs i, Relays fuel program phases signal i outs ∧
      (i = phases.length ∨ ∃ phase, phases[i]? = some phase ∧
        ∀ values, outputsOf fuel program (phase :: outs i) ≠ some (.ok values)) := by
  obtain ⟨circuit, hb, hams⟩ := exists_build hne journal
  -- The sweep behind the first `i` amplifiers, whose calls have halted.
  have hsweep : ∀ outs i, i ≤ phases.length → Relays fuel program phases signal i outs →
      ∃ p ms, ms.length = i ∧ sweep (runAmplifier fuel) circuit.amplifiers [signal] =
        (sweep (runAmplifier fuel) (fresh program (phases.drop i) journal.verbose) (outs i)).map
          fun (r, rest) => (resultFrom p r, ms ++ rest) := by
    intro outs i hi hr
    rw [hams, ← hr.start]
    exact exists_sweep_of_relays hi hr.next
  refine ⟨circuit, hb, rfl, ?_, fun outs hr => ?_, fun outs i phase e hr hp he => ?_,
    fun outs i phase hr hp hn => ?_, exists_relays fuel program phases signal⟩
  · simp only [amplify, ExceptT.run_mk, StateT.run, hb]
    rfl
  · obtain ⟨p, ms, -, hs⟩ := hsweep outs _ (Nat.le_refl _) hr
    rw [List.drop_length] at hs
    obtain ⟨next, hnext, -⟩ := runChain_of_sweep hs
    exact ⟨next, hnext⟩
  · have hi := (List.getElem?_eq_some_iff.1 hp).1
    obtain ⟨p, ms, hms, hs⟩ := hsweep outs i (Nat.le_of_lt hi) hr
    obtain ⟨interrupt, n, rfl, hd⟩ := runAmplifier_of_error journal.verbose he
    rw [drop_fresh hp, sweep_cons_of_error hd] at hs
    obtain ⟨next, hnext, hafter⟩ := runChain_of_sweep hs
    refine ⟨interrupt, next, rfl, hnext, ?_⟩
    have hlen : (ms.map (·.takeJournal.2)).length = i := by rw [List.length_map, hms]
    rw [hafter, List.map_append, List.map_cons, map_takeJournal_fresh, ← hlen,
      List.drop_length_add_append, List.drop_succ_cons, List.drop_zero]
  · have hi := (List.getElem?_eq_some_iff.1 hp).1
    obtain ⟨p, ms, -, hs⟩ := hsweep outs i (Nat.le_of_lt hi) hr
    rw [drop_fresh hp] at hs
    have hd := runAmplifier_of_none journal.verbose hn
    refine runChain_of_sweep_none ?_
    rw [hs, sweep_cons_of_none hd, Option.map_none]

/-- A program that executes its phase: 104 outputs the word behind it, which is 7,
and 42 is no instruction. -/
theorem chain_relays_calls_executed :
    (∃ circuit next, build [3, 2, 0, 7, 99] [104, 104] (.empty false) = .ok circuit ∧
      circuit.runChain 9 1 = some (.ok 7, next)) ∧
    ∃ circuit next, build [3, 2, 0, 7, 99] [104, 42, 104] (.empty false) = .ok circuit ∧
      circuit.runChain 9 1 = some (.error (.interrupted (.failed (.fault
        (.badInstruction 42 2 .unknownOperation)))), next) ∧
      next.amplifiers.drop 2 = fresh [3, 2, 0, 7, 99] [104] false := by
  have hfirst : outputsOf 9 [3, 2, 0, 7, 99] [104, 1] = some (.ok [7]) := rfl
  have hsecond : outputsOf 9 [3, 2, 0, 7, 99] [104, 7] = some (.ok [7]) := rfl
  have hfails : outputsOf 9 [3, 2, 0, 7, 99] [42, 7] = some (.error (.interrupted (.failed
    (.fault (.badInstruction 42 2 .unknownOperation))))) := rfl
  let outs : Nat → List Int := fun i => if i = 0 then [1] else [7]
  constructor
  · obtain ⟨circuit, hb, -, -, hhalt, -⟩ :=
      chain_relays_calls [3, 2, 0, 7, 99] [104, 104] 1 (.empty false) 9 nofun
    have hr : Relays 9 [3, 2, 0, 7, 99] [104, 104] 1 2 outs := by
      refine ⟨rfl, fun i phase hi hp => ?_⟩
      obtain rfl | rfl : i = 0 ∨ i = 1 := by omega
      · cases hp
        exact hfirst
      · cases hp
        exact hsecond
    obtain ⟨next, hnext⟩ := hhalt outs hr
    exact ⟨circuit, next, hb, hnext⟩
  · obtain ⟨circuit, hb, -, -, -, hfail, -⟩ :=
      chain_relays_calls [3, 2, 0, 7, 99] [104, 42, 104] 1 (.empty false) 9 nofun
    have hr : Relays 9 [3, 2, 0, 7, 99] [104, 42, 104] 1 1 outs := by
      refine ⟨rfl, fun i phase hi hp => ?_⟩
      obtain rfl : i = 0 := by omega
      cases hp
      exact hfirst
    obtain ⟨interrupt, next, he, hnext, hafter⟩ := hfail outs 1 42 _ hr rfl hfails
    cases he
    exact ⟨circuit, next, hb, hnext, hafter⟩

end Circuit

end Wordcode
