import Wordcode.Circuit.Feedback
import Wordcode.Proofs.Machine.Run

/-!
# What the amplifiers of a feedback loop have done

The history of an amplifier in a feedback loop is put together from those of
its rounds (`feedbackHistory`), and in a round it is the machines that `serve`
steps (`served`). The rest is what serving an amplifier does to it: whatever
each step keeps, the service keeps (`serve_keep`).
-/

namespace Wordcode

open Machine

namespace Circuit

/-- The machine as each step found it that was made in serving it. -/
def served (fuel : Nat) (m : Machine) : List Machine :=
  ((visited serviceRound fuel (m, false)).map Prod.fst).filter (·.IsRunning)

/-- The history of the `i`-th amplifier in a sweep that serves the amplifiers. -/
def sweepHistory (fuel : Nat) : List Machine → List Int → Nat → List Machine
  | [], _, _ => []
  | m :: _, values, 0 => served fuel (m.addInputs values)
  | m :: rest, values, i + 1 =>
    match serve fuel (m.addInputs values) with
    | some (.ok _, m) => sweepHistory fuel rest m.outputs.toList i
    | _ => []

/-- The history of the `i`-th amplifier in the round that a feedback loop makes,
if it makes one. -/
def roundHistory (fuel : Nat) (state : Circuit × List Int) (i : Nat) : List Machine :=
  if ∃ m ∈ state.1.amplifiers, m.IsRunning then sweepHistory fuel state.1.amplifiers state.2 i
  else []

/-- The history of the `i`-th amplifier in the first `k` rounds of a feedback
loop. -/
def feedbackHistory (fuel k : Nat) (state : Circuit × List Int) (i : Nat) : List Machine :=
  (visited (feedbackRound fuel) k state).flatMap (roundHistory fuel · i)

variable {fuel k : Nat} {m n t : Machine} {p q : Bool} {e : Interrupt} {s : Status} {f : Failure}
  {h : List Machine}

/-! ## Steps in a service -/

/-- What a round of a service does. -/
theorem serviceRound_cases (m : Machine) (p : Bool) :
    (¬ m.IsRunning ∧ serviceRound (m, p) = .done (.ok p, m)) ∨
    (m.IsRunning ∧
      ((∃ s n, step m = .ok s n ∧ s ≠ .waiting ∧ serviceRound (m, p) = .again (n, true)) ∨
        (∃ n, step m = .ok .waiting n ∧ serviceRound (m, p) = .done (.ok p, n)) ∨
        ∃ f n, step m = .error f n ∧ serviceRound (m, p) = .done (.error (.failed f), n))) := by
  by_cases hm : m.IsRunning
  · refine .inr ⟨hm, ?_⟩
    cases hs : step m with
    | error f n =>
      refine .inr (.inr ⟨f, n, rfl, ?_⟩)
      simp only [serviceRound, if_pos hm, tryStep_of_error hs]
    | ok s n =>
      by_cases hw : s = .waiting
      · subst hw
        refine .inr (.inl ⟨n, rfl, ?_⟩)
        simp only [serviceRound, if_pos hm, tryStep_of_waiting hs]
      · refine .inl ⟨s, n, rfl, hw, ?_⟩
        simp only [serviceRound, if_pos hm, tryStep_of_ok hs hw]
  · refine .inl ⟨hm, ?_⟩
    simp only [serviceRound, if_neg hm]

/-- A round of a service that goes on has made a step. -/
theorem serviceRound_eq_again (hr : serviceRound (m, p) = .again (n, q)) :
    m.IsRunning ∧ q = true ∧ ∃ s, step m = .ok s n ∧ s ≠ .waiting := by
  rcases serviceRound_cases m p with
    ⟨-, h⟩ | ⟨hm, ⟨s, n', hs, hw, h⟩ | ⟨n', -, h⟩ | ⟨f, n', -, h⟩⟩
  · cases h.symm.trans hr
  · cases h.symm.trans hr
    exact ⟨hm, rfl, s, hs, hw⟩
  · cases h.symm.trans hr
  · cases h.symm.trans hr

/-- How a round ends a service. -/
theorem serviceRound_eq_done {r : Except Interrupt Bool} (hr : serviceRound (m, p) = .done (r, n)) :
    (¬ m.IsRunning ∧ r = .ok p ∧ n = m) ∨
    (m.IsRunning ∧ step m = .ok .waiting n ∧ r = .ok p) ∨
    (m.IsRunning ∧ ∃ f, step m = .error f n ∧ r = .error (.failed f)) := by
  rcases serviceRound_cases m p with
    ⟨hm, h⟩ | ⟨hm, ⟨s, n', hs, hw, h⟩ | ⟨n', hs, h⟩ | ⟨f, n', hs, h⟩⟩
  · cases h.symm.trans hr
    exact .inl ⟨hm, rfl, rfl⟩
  · cases h.symm.trans hr
  · cases h.symm.trans hr
    exact .inr (.inl ⟨hm, hs, rfl⟩)
  · cases h.symm.trans hr
    exact .inr (.inr ⟨hm, f, hs, rfl⟩)

/-! ## Services -/

/-- The last round of a service, and what all rounds before it have kept. -/
theorem exists_last_of_serve {P : List Machine → Machine → Prop}
    (hP : ∀ h m s n, P h m → m.IsRunning → step m = .ok s n → P (h ++ [m]) n) (hm : P h m)
    {r : Except Interrupt Bool} (hs : serve fuel m = some (r, n)) :
    ∃ g t p, P (h ++ g) t ∧ (p = false → g = [] ∧ t = m) ∧ serviceRound (t, p) = .done (r, n) ∧
      served fuel m = g ++ [t].filter (·.IsRunning) := by
  obtain ⟨k, ⟨t, p⟩, -, hk, hr, hv⟩ := exists_stateAfter_of_loop hs
  let Q : List (Machine × Bool) → Machine × Bool → Prop := fun l s =>
    P (h ++ (l.map Prod.fst).filter (·.IsRunning)) s.1 ∧ (s.2 = false → l = [] ∧ s.1 = m)
  have hQ : Q ([] ++ visited serviceRound k (m, false)) (t, p) := by
    refine stateAfter_keep ?_ ⟨by simpa using hm, fun _ => ⟨rfl, rfl⟩⟩ hk
    rintro l ⟨a, u⟩ ⟨b, v⟩ ⟨ha, -⟩ hab
    obtain ⟨hrun, rfl, s, hs, -⟩ := serviceRound_eq_again hab
    refine ⟨?_, nofun⟩
    have hb := hP _ _ _ _ ha hrun hs
    rw [List.append_assoc] at hb
    simpa [hrun] using hb
  rw [List.nil_append] at hQ
  refine ⟨_, t, p, hQ.1, fun hp => ?_, hr, ?_⟩
  · rw [(hQ.2 hp).1]
    exact ⟨rfl, (hQ.2 hp).2⟩
  · simp only [served, hv, List.map_append, List.filter_append, List.map_cons, List.map_nil]

/-- What every step keeps, together with the history, a service keeps. -/
theorem serve_keep {P : List Machine → Machine → Prop}
    (hP : ∀ h m s n, P h m → m.IsRunning → step m = .ok s n → P (h ++ [m]) n) (hm : P h m)
    (hs : serve fuel m = some (.ok p, n)) : P (h ++ served fuel m) n := by
  obtain ⟨g, t, q, ht, -, hr, hserved⟩ := exists_last_of_serve hP hm hs
  rw [hserved]
  rcases serviceRound_eq_done hr with ⟨hrun, -, rfl⟩ | ⟨hrun, hw, -⟩ | ⟨-, f, -, hf⟩
  · simpa [hrun] using ht
  · have hn := hP _ _ _ _ ht hrun hw
    rw [List.append_assoc] at hn
    simpa [hrun] using hn
  · cases hf

/-- A service that is interrupted has failed in its last step. -/
theorem serve_fails {P : List Machine → Machine → Prop}
    (hP : ∀ h m s n, P h m → m.IsRunning → step m = .ok s n → P (h ++ [m]) n) (hm : P h m)
    (hs : serve fuel m = some (.error e, n)) :
    ∃ g t f, P (h ++ g) t ∧ step t = .error f n ∧ served fuel m = g ++ [t] := by
  obtain ⟨g, t, q, ht, -, hr, hserved⟩ := exists_last_of_serve hP hm hs
  rcases serviceRound_eq_done hr with ⟨-, hf, -⟩ | ⟨-, -, hf⟩ | ⟨hrun, f, hf, -⟩
  · cases hf
  · cases hf
  · exact ⟨g, t, f, ht, hf, by simpa [hrun] using hserved⟩

/-- A service without progress finds a machine that has halted, or starves. -/
theorem serve_idle (hs : serve fuel m = some (.ok false, n)) :
    (m.status = .stopped ∧ n = m ∧ served fuel m = []) ∨
    (step m = .ok .waiting n ∧ served fuel m = [m]) := by
  obtain ⟨g, t, q, -, hq, hr, hserved⟩ := @exists_last_of_serve fuel m n [] (fun _ _ => True)
    (fun _ _ _ _ _ _ _ => trivial) trivial _ hs
  rcases serviceRound_eq_done hr with ⟨hrun, hf, rfl⟩ | ⟨hrun, hw, hf⟩ | ⟨-, f, -, hf⟩
  · cases hf
    obtain ⟨rfl, rfl⟩ := hq rfl
    exact .inl ⟨Decidable.not_not.1 hrun, rfl, by simpa [hrun] using hserved⟩
  · cases hf
    obtain ⟨rfl, rfl⟩ := hq rfl
    exact .inr ⟨hw, by simpa [hrun] using hserved⟩
  · cases hf

/-- A service takes and sends what its steps do. -/
theorem trades_serve {r : Except Interrupt Bool} (hs : serve fuel m = some (r, n)) :
    Trades m n (taken (served fuel m)) (sent (served fuel m)) := by
  let P : List Machine → Machine → Prop := fun h a => Trades m a (taken h) (sent h)
  have hstep : ∀ h a s b, P h a → a.IsRunning → step a = .ok s b → P (h ++ [a]) b := by
    intro h a s b ha _ hb
    rw [← after_of_ok hb]
    exact trades_after ha
  have hm : P [] m := .refl m
  cases r with
  | ok p => exact serve_keep hstep hm hs
  | error e =>
    obtain ⟨g, t, f, ht, hf, hserved⟩ := serve_fails hstep hm hs
    rw [hserved, ← after_of_error hf]
    exact trades_after ht

/-! ## Feedback loops -/

variable {circuit next : Circuit} {held held' : List Int} {state last : Circuit × List Int}
  {signal v : Int} {result : Except CircuitError Int}

theorem roundHistory_of_running (hr : ∃ m ∈ circuit.amplifiers, m.IsRunning) :
    roundHistory fuel (circuit, held) = sweepHistory fuel circuit.amplifiers held :=
  funext fun _ => if_pos hr

theorem roundHistory_of_stopped (hr : ∀ m ∈ circuit.amplifiers, m.status = .stopped) :
    roundHistory fuel (circuit, held) = fun _ => [] :=
  funext fun _ => if_neg fun ⟨m, hm, hrun⟩ => hrun (hr m hm)

theorem close_eq_ok (h : circuit.close = (.ok v, next)) :
    circuit.signal = some v ∧ next.amplifiers = circuit.amplifiers := by
  unfold close at h
  split at h
  · cases h
  · next hs =>
    cases h
    exact ⟨hs, rfl⟩

/-- A loop ends in an error if the last amplifier has sent nothing. -/
theorem close_eq_error {e : CircuitError} (h : circuit.close = (.error e, next)) :
    e = .silent ∧ circuit.signal = none ∧ next.amplifiers = circuit.amplifiers := by
  unfold close at h
  split at h
  · next hs =>
    cases h
    exact ⟨rfl, hs, rfl⟩
  · cases h

/-- A loop that goes on has made a round. -/
theorem feedbackRound_eq_again (h : feedbackRound fuel (circuit, held) = .again (next, held')) :
    (∃ m ∈ circuit.amplifiers, m.IsRunning) ∧ circuit.round fuel held = some (.ok held', next) := by
  simp only [feedbackRound] at h
  split at h
  · next hr =>
    split at h
    · cases h
    · cases h
    · next hround =>
      cases h
      exact ⟨hr, hround⟩
  · cases h

/-- A loop ends in a round that fails, or when every amplifier has halted. -/
theorem feedbackRound_eq_done
    (h : feedbackRound fuel (circuit, held) = .done (some (result, next))) :
    ((∃ m ∈ circuit.amplifiers, m.IsRunning) ∧
      ∃ e, result = .error e ∧ circuit.round fuel held = some (.error e, next)) ∨
    ((∀ m ∈ circuit.amplifiers, m.status = .stopped) ∧ circuit.close = (result, next)) := by
  simp only [feedbackRound] at h
  split at h
  · next hr =>
    split at h
    · cases h
    · next hround =>
      cases h
      exact .inl ⟨hr, _, rfl, hround⟩
    · cases h
  · next hr =>
    refine .inr ⟨fun m hm => Decidable.byContradiction fun hs => hr ⟨m, hm, hs⟩, ?_⟩
    injection h with h
    exact Option.some.inj h

/-- What holds of a loop and the histories of its amplifiers, if every round
keeps it, holds after rounds. -/
theorem feedback_keep {P : (Nat → List Machine) → Circuit × List Int → Prop}
    (hP : ∀ g circuit held next held', P g (circuit, held) →
      (∃ m ∈ circuit.amplifiers, m.IsRunning) → circuit.round fuel held = some (.ok held', next) →
      P (fun i => g i ++ sweepHistory fuel circuit.amplifiers held i) (next, held'))
    (h : P (fun _ => []) state) (hk : stateAfter (feedbackRound fuel) k state = some last) :
    P (feedbackHistory fuel k state) last := by
  let Q : List (Circuit × List Int) → Circuit × List Int → Prop := fun l s =>
    P (fun i => l.flatMap (roundHistory fuel · i)) s
  have hQ : ∀ l s t, Q l s → feedbackRound fuel s = .again t → Q (l ++ [s]) t := by
    rintro l ⟨circuit, held⟩ ⟨next, held'⟩ hl hs
    obtain ⟨hr, hround⟩ := feedbackRound_eq_again hs
    have hn := hP _ _ _ _ _ hl hr hround
    rw [← roundHistory_of_running hr] at hn
    simpa only [Q, List.flatMap_append, List.flatMap_singleton] using hn
  have h0 : Q [] state := h
  exact stateAfter_keep hQ h0 hk

/-- A feedback loop is left in a round that fails, or after its last round. -/
theorem runFeedback_cases (h : runFeedback fuel circuit signal = some (result, next)) :
    ∃ k last held,
      stateAfter (feedbackRound fuel) k (circuit.inject signal, []) = some (last, held) ∧
      (((∃ m ∈ last.amplifiers, m.IsRunning) ∧
          (∃ e, result = .error e ∧ last.round fuel held = some (.error e, next)) ∧
          feedbackHistory fuel fuel (circuit.inject signal, []) = fun i =>
            feedbackHistory fuel k (circuit.inject signal, []) i ++
              sweepHistory fuel last.amplifiers held i) ∨
        ((∀ m ∈ last.amplifiers, m.status = .stopped) ∧ last.close = (result, next) ∧
          feedbackHistory fuel fuel (circuit.inject signal, []) =
            feedbackHistory fuel k (circuit.inject signal, []))) := by
  obtain ⟨k, ⟨last, held⟩, -, hk, hlast, hv⟩ :=
    exists_stateAfter_of_loop (Option.join_eq_some_iff.1 h)
  have hh : ∀ i, feedbackHistory fuel fuel (circuit.inject signal, []) i =
      feedbackHistory fuel k (circuit.inject signal, []) i ++
        roundHistory fuel (last, held) i := by
    intro i
    rw [feedbackHistory, hv, List.flatMap_append, List.flatMap_singleton]
    rfl
  refine ⟨k, last, held, hk, ?_⟩
  rcases feedbackRound_eq_done hlast with ⟨hr, hround⟩ | ⟨hr, hclose⟩
  · rw [roundHistory_of_running hr] at hh
    exact .inl ⟨hr, hround, funext hh⟩
  · rw [roundHistory_of_stopped hr] at hh
    exact .inr ⟨hr, hclose, funext fun i => (hh i).trans (List.append_nil _)⟩

end Circuit

end Wordcode
