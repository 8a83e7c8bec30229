import Wordcode.Proofs.Circuit.History
import Wordcode.Proofs.Machine.Alike

/-!
# What a sweep does to each amplifier

A sweep hands values from amplifier to amplifier. What it does to one of them
depends on what that one is given, and `Serves` lists the three ways: it is
served, and hands out its outputs; it is interrupted; or the sweep has ended
before it. All that is needed of sweeps and of rounds follows by cases
(`sweep_serves`, `round_passes`). A sweep that is not interrupted leaves every
amplifier dormant: it has halted, or waits for an input that is not there.
-/

namespace Wordcode

namespace Machine

/-- The machine has halted, or waits for an input that is not there, and none of
its outputs is left to be handed on. -/
structure Dormant (m : Machine) : Prop where
  rests : m.status = .stopped ∨ m.status = .waiting ∧ m.Starves
  drained : m.outputs.toList = []

namespace Dormant

variable {m : Machine}

theorem waits (h : m.Dormant) (hr : m.IsRunning) : m.status = .waiting ∧ m.Starves :=
  h.rests.resolve_left hr

theorem takeJournal (h : m.Dormant) : m.takeJournal.2.Dormant := by
  have ha : Alike 0 m.takeJournal.2 m := ⟨rfl, rfl, rfl, rfl, rfl, .inl rfl⟩
  exact ⟨h.rests.imp_right fun ⟨hw, hs⟩ => ⟨hw, (ha.starves_iff rfl).2 hs⟩, h.drained⟩

/-- A step of a dormant machine finds no input, and the machine stays dormant. -/
theorem step (h : m.Dormant) (hr : m.IsRunning) :
    ∃ n, Machine.step m = .ok .waiting n ∧ n.Dormant ∧ n.counters.steps = m.counters.steps := by
  obtain ⟨n, hn⟩ := starves_iff.1 (h.waits hr).2
  have ho := m.trades_step.outputs
  rw [after_of_ok hn, sends_of_waiting hn, h.drained] at ho
  exact ⟨n, hn, ⟨.inr ⟨status_eq_of_step hn, starves_of_waiting hn⟩, ho⟩, steps_of_waiting hn⟩

end Dormant

end Machine

open Machine

namespace Circuit

/-- What a sweep hands out at its end. -/
def carried : Except Interrupt Swept → List Int
  | .ok swept => swept.outputs
  | .error _ => []

/-- What a sweep with the given result does to an amplifier: `given` is what it
is given, `handed` what it hands on. -/
inductive Serves (fuel : Nat) (result : Except Interrupt Swept) (a : Machine) (given : List Int) :
    List Int → List Machine → Machine → Prop
  /-- It is served. -/
  | served {progressed : Bool} {n : Machine}
    (hs : serve fuel (a.addInputs given) = some (.ok progressed, n))
    (hp : ∀ swept, result = .ok swept → progressed = true → swept.progressed = true) :
    Serves fuel result a given n.outputs.toList (served fuel (a.addInputs given))
      { n with outputs := ∅ }
  /-- It is interrupted. -/
  | interrupted {e : Interrupt} {n : Machine} (he : result = .error e)
    (hs : serve fuel (a.addInputs given) = some (.error e, n)) :
    Serves fuel result a given [] (served fuel (a.addInputs given)) n
  /-- An amplifier before it was interrupted. -/
  | skipped {e : Interrupt} (he : result = .error e) (hg : given = []) :
    Serves fuel result a given [] [] a

variable {fuel : Nat} {m n a b : Machine} {ms ns rest : List Machine} {values : List Int}
  {r : Except Interrupt Swept} {e : Interrupt} {p : Bool}

theorem sweep_nil {drive : Drive} : sweep drive [] values = some (.ok ⟨values, false⟩, []) := rfl

theorem sweep_cons_of_error {drive : Drive}
    (hd : drive (m.addInputs values) = some (.error e, n)) :
    sweep drive (m :: rest) values = some (.error e, n :: rest) := by
  simp [sweep, hd]

/-- The result of a sweep is made from that of the amplifiers behind the first. -/
def resultFrom (p : Bool) (r : Except Interrupt Swept) : Except Interrupt Swept :=
  r.map fun swept => ⟨swept.outputs, p || swept.progressed⟩

theorem carried_resultFrom : carried (resultFrom p r) = carried r := by
  cases r <;> rfl

theorem Serves.of_rest {given handed : List Int} {h : List Machine}
    (hs : Serves fuel r a given handed h b) : Serves fuel (resultFrom p r) a given handed h b := by
  cases hs with
  | served hs hp =>
    refine .served hs fun swept hr hprogressed => ?_
    cases r with
    | error e => cases hr
    | ok swept' =>
      cases hr
      exact Bool.or_eq_true_iff.2 (.inr (hp swept' rfl hprogressed))
  | interrupted he hs => exact .interrupted (by rw [he]; rfl) hs
  | skipped he hg => exact .skipped (by rw [he]; rfl) hg

theorem sweep_cons_of_ok {drive : Drive} (hd : drive (m.addInputs values) = some (.ok p, n)) :
    sweep drive (m :: rest) values =
      (sweep drive rest n.outputs.toList).map fun (r, ms) =>
        (resultFrom p r, { n with outputs := ∅ } :: ms) := by
  simp only [sweep, hd, Option.bind_eq_bind, Option.bind_some, drainOutputs]
  cases sweep drive rest n.outputs.toList with
  | none => rfl
  | some q =>
    obtain ⟨r | r, ms⟩ := q
    · rfl
    · rfl

/-- A sweep gives to each amplifier what the one before hands on. -/
theorem sweep_serves (hs : sweep (serve fuel) ms values = some (r, ns)) :
    ns.length = ms.length ∧ ∃ v : Nat → List Int, v 0 = values ∧ v ms.length = carried r ∧
      ∀ i b, ns[i]? = some b → ∃ a, ms[i]? = some a ∧
        Serves fuel r a (v i) (v (i + 1)) (sweepHistory fuel ms values i) b := by
  induction ms generalizing values r ns with
  | nil =>
    rw [sweep_nil] at hs
    cases hs
    exact ⟨rfl, fun _ => values, rfl, rfl, fun i b hb => by simp at hb⟩
  | cons m rest ih =>
    cases hd : serve fuel (m.addInputs values) with
    | none => simp [sweep, hd] at hs
    | some q =>
      obtain ⟨e | p, n⟩ := q
      · rw [sweep_cons_of_error hd] at hs
        cases hs
        refine ⟨rfl, fun i => if i = 0 then values else [], rfl, rfl, fun i b hb => ?_⟩
        cases i with
        | zero =>
          cases hb
          exact ⟨m, rfl, .interrupted rfl hd⟩
        | succ i =>
          simp only [sweepHistory, hd]
          exact ⟨b, hb, .skipped rfl rfl⟩
      · rw [sweep_cons_of_ok hd] at hs
        obtain ⟨⟨r', ns'⟩, hrest, hr⟩ := Option.map_eq_some_iff.1 hs
        cases hr
        obtain ⟨hlen, v, hv, hvn, hserves⟩ := ih hrest
        refine ⟨congrArg (· + 1) hlen, fun i => Nat.casesOn i values v, rfl, ?_,
          fun i b hb => ?_⟩
        · show v rest.length = _
          rw [hvn, carried_resultFrom]
        · cases i with
          | zero =>
            cases hb
            refine ⟨m, rfl, ?_⟩
            show Serves _ _ _ values (v 0) _ _
            rw [hv]
            refine .served hd fun swept hswept hp => ?_
            cases r' with
            | error e => cases hswept
            | ok swept' =>
              cases hswept
              exact Bool.or_eq_true_iff.2 (.inl hp)
          | succ i =>
            obtain ⟨a, ha, hab⟩ := hserves i b hb
            refine ⟨a, ha, ?_⟩
            show Serves _ _ _ (v i) (v (i + 1)) _ _
            simp only [sweepHistory, hd]
            exact hab.of_rest

/-! ## Rounds -/

variable {circuit next : Circuit} {held : List Int} {result : Except CircuitError (List Int)}

/-- What a round makes of the result of its sweep. -/
inductive Concludes (circuit next : Circuit) :
    Except Interrupt Swept → Except CircuitError (List Int) → Prop
  | interrupted {e : Interrupt} : Concludes circuit next (.error e) (.error (.interrupted e))
  /-- No amplifier got on, and one waits for input. -/
  | deadlocked {swept : Swept} (hp : swept.progressed = false)
    (hw : ∃ m ∈ next.amplifiers, m.status = .waiting) :
    Concludes circuit next (.ok swept) (.error .deadlocked)
  | passed {swept : Swept} (hs : next.signal = swept.outputs.getLast?.or circuit.signal) :
    Concludes circuit next (.ok swept) (.ok swept.outputs)

/-- What a round does to the amplifiers if its sweep has the result `r`: the
`i`-th is given `v i`, and hands on `v (i + 1)`. -/
structure Passes (fuel : Nat) (circuit : Circuit) (held : List Int) (r : Except Interrupt Swept)
    (next : Circuit) (v : Nat → List Int) : Prop where
  length : next.amplifiers.length = circuit.amplifiers.length
  first : v 0 = held
  last : v circuit.amplifiers.length = carried r
  serves : ∀ i b, next.amplifiers[i]? = some b → ∃ a n, circuit.amplifiers[i]? = some a ∧
    b = n.takeJournal.2 ∧
    Serves fuel r a (v i) (v (i + 1)) (sweepHistory fuel circuit.amplifiers held i) n

theorem exists_sweep_of_round (hs : circuit.round fuel held = some (result, next)) :
    ∃ r ms, sweep (serve fuel) circuit.amplifiers held = some (r, ms) := by
  cases hsweep : sweep (serve fuel) circuit.amplifiers held with
  | none => simp [round, pass, hsweep] at hs
  | some p => exact ⟨p.1, p.2, rfl⟩

/-- What a round makes of its sweep. -/
theorem round_of_sweep (hsweep : sweep (serve fuel) circuit.amplifiers held = some (r, ms))
    (hs : circuit.round fuel held = some (result, next)) :
    Concludes circuit next r result ∧ next.amplifiers = ms.map (·.takeJournal.2) ∧
      next.rounds = circuit.rounds + 1 := by
  simp only [round, pass, hsweep, Option.bind_eq_bind, Option.bind_some] at hs
  cases r with
  | error e =>
    cases hs
    exact ⟨.interrupted, rfl, rfl⟩
  | ok swept =>
    simp only [Option.pure_def, Option.bind_some] at hs
    split at hs
    · next h =>
      cases hs
      exact ⟨.deadlocked h.1 h.2, rfl, rfl⟩
    · cases hs
      exact ⟨.passed rfl, rfl, rfl⟩

theorem passes_of_sweep (hsweep : sweep (serve fuel) circuit.amplifiers held = some (r, ms))
    (hs : circuit.round fuel held = some (result, next)) :
    ∃ v, Passes fuel circuit held r next v := by
  obtain ⟨-, hnext, -⟩ := round_of_sweep hsweep hs
  obtain ⟨hlen, v, hv, hvn, hserves⟩ := sweep_serves hsweep
  refine ⟨v, by rw [hnext, List.length_map, hlen], hv, hvn, fun i b hb => ?_⟩
  rw [hnext, List.getElem?_map] at hb
  obtain ⟨n, hn, rfl⟩ := Option.map_eq_some_iff.1 hb
  obtain ⟨a, ha, hab⟩ := hserves i n hn
  exact ⟨a, n, ha, rfl, hab⟩

/-- A round sweeps over the amplifiers, with the values held for the first. -/
theorem round_passes (hs : circuit.round fuel held = some (result, next)) :
    ∃ r v, Concludes circuit next r result ∧ Passes fuel circuit held r next v := by
  obtain ⟨r, ms, hsweep⟩ := exists_sweep_of_round hs
  obtain ⟨v, hv⟩ := passes_of_sweep hsweep hs
  exact ⟨r, v, (round_of_sweep hsweep hs).1, hv⟩

/-! ## What follows for an amplifier -/

variable {given handed : List Int} {h : List Machine} {swept : Swept}

namespace Serves

/-- What an amplifier takes is missing from its inputs, to which the given
values were added. What it sends is added to its outputs, from which those
handed on are missing. -/
theorem trades (hs : Serves fuel r a given handed h b) :
    taken h ++ b.inputs.toList = a.inputs.toList ++ given ∧
      handed ++ b.outputs.toList = a.outputs.toList ++ sent h ∧
      b.counters.inputs = a.counters.inputs + (taken h).length ∧
      b.counters.outputs = a.counters.outputs + (sent h).length := by
  have hg : (a.addInputs given).inputs.toList = a.inputs.toList ++ given := Queue.toList_extend
  rw [← hg]
  cases hs with
  | served hs =>
    have ht := trades_serve hs
    exact ⟨ht.inputs, (List.append_nil _).trans ht.outputs, ht.taken, ht.sent⟩
  | interrupted he hs =>
    have ht := trades_serve hs
    exact ⟨ht.inputs, ht.outputs, ht.taken, ht.sent⟩
  | skipped he hg' =>
    rw [hg, hg', List.append_nil]
    exact ⟨rfl, (List.append_nil _).symm, rfl, rfl⟩

/-- In a sweep that comes to its end every amplifier is served. -/
theorem of_ok (hs : Serves fuel (.ok swept) a given handed h b) :
    ∃ p n, serve fuel (a.addInputs given) = some (.ok p, n) ∧
      (p = true → swept.progressed = true) ∧ h = Circuit.served fuel (a.addInputs given) ∧
      b = { n with outputs := ∅ } := by
  cases hs with
  | @served p n hs hp => exact ⟨p, n, hs, hp swept rfl, rfl, rfl⟩
  | interrupted he => cases he
  | skipped he => cases he

/-- A sweep that comes to its end leaves dormant amplifiers. -/
theorem dormant (hs : Serves fuel (.ok swept) a given handed h b) : b.Dormant := by
  obtain ⟨p, n, hserve, -, -, rfl⟩ := hs.of_ok
  refine ⟨?_, rfl⟩
  obtain ⟨k, ⟨t, q⟩, -, -, hr, -⟩ := exists_stateAfter_of_loop hserve
  rcases serviceRound_eq_done hr with ⟨hrun, -, rfl⟩ | ⟨-, hw, -⟩ | ⟨-, f, -, hf⟩
  · exact .inl (Decidable.not_not.1 hrun)
  · have ha : Alike 0 { n with outputs := ∅ } n := ⟨rfl, rfl, rfl, rfl, rfl, .inl rfl⟩
    have hstatus : n.status = .waiting := status_eq_of_step hw
    exact .inr ⟨hstatus, (ha.starves_iff rfl).2 (starves_of_waiting hw)⟩
  · cases hf

/-- In a sweep without progress an amplifier sends nothing, and one that has not
halted waits. -/
theorem idle (hs : Serves fuel (.ok swept) a given handed h b) (hp : swept.progressed = false) :
    sent h = [] ∧ (a.IsRunning → b.status = .waiting) := by
  obtain ⟨p, n, hserve, hprogressed, rfl, rfl⟩ := hs.of_ok
  cases p with
  | true =>
    rw [hprogressed rfl] at hp
    cases hp
  | false =>
    rcases serve_idle hserve with ⟨hstop, -, hh⟩ | ⟨hw, hh⟩
    · rw [hh]
      exact ⟨rfl, fun hrun => absurd hstop hrun⟩
    · have hstatus : n.status = .waiting := status_eq_of_step hw
      rw [hh, sent_singleton, sends_of_waiting hw]
      exact ⟨rfl, fun _ => hstatus⟩

end Serves

end Circuit

end Wordcode
