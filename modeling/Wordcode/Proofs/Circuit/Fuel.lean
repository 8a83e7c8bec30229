import Wordcode.Proofs.Circuit.Sweep

/-!
# Feedback loops without a bound

How long amplifiers are served and how many rounds a feedback loop may make is
bounded by its fuel. More fuel changes nothing that happens within a bound. So a
loop whose rounds come to their ends, each under a bound of its own, ends so
under any bound that is large enough (`exists_runFeedback`).
-/

namespace Wordcode

namespace Circuit

variable {fuel fuel' k : Nat} {drive drive' : Drive} {ms : List Machine} {values held : List Int}
  {circuit next : Circuit} {signal : Int} {state state' : Circuit × List Int}
  {p : Except Interrupt Swept × List Machine} {q : Except CircuitError (List Int) × Circuit}
  {r : Except CircuitError Int × Circuit}

/-- A sweep depends on how the amplifiers that it comes to are driven. -/
theorem sweep_mono (hd : ∀ m p, drive m = some p → drive' m = some p)
    (h : sweep drive ms values = some p) : sweep drive' ms values = some p := by
  induction ms generalizing values p with
  | nil => exact h
  | cons m rest ih =>
    cases hm : drive (m.addInputs values) with
    | none => simp [sweep, hm] at h
    | some x =>
      obtain ⟨e | progressed, n⟩ := x
      · rw [sweep_cons_of_error hm] at h
        rw [sweep_cons_of_error (hd _ _ hm), h]
      · rw [sweep_cons_of_ok hm] at h
        obtain ⟨y, hy, hp⟩ := Option.map_eq_some_iff.1 h
        rw [sweep_cons_of_ok (hd _ _ hm), ih hy, ← hp]
        rfl

theorem round_mono (hf : fuel ≤ fuel') (h : circuit.round fuel held = some q) :
    circuit.round fuel' held = some q := by
  obtain ⟨x, hx, hq⟩ := Option.bind_eq_some_iff.1 h
  obtain ⟨y, hy, hxy⟩ := Option.bind_eq_some_iff.1 hx
  have hserve : ∀ m p, serve fuel m = some p → serve fuel' m = some p := fun _ _ hm =>
    loop_mono hm hf
  have hsweep := sweep_mono hserve hy
  exact Option.bind_eq_some_iff.2 ⟨x, Option.bind_eq_some_iff.2 ⟨y, hsweep, hxy⟩, hq⟩

theorem feedbackRound_of_round_ok (hr : ∃ m ∈ circuit.amplifiers, m.IsRunning)
    {held' : List Int} (h : circuit.round fuel held = some (.ok held', next)) :
    feedbackRound fuel (circuit, held) = .again (next, held') := by
  simp only [feedbackRound, if_pos hr, h]

theorem feedbackRound_of_round_error (hr : ∃ m ∈ circuit.amplifiers, m.IsRunning)
    {e : CircuitError} (h : circuit.round fuel held = some (.error e, next)) :
    feedbackRound fuel (circuit, held) = .done (some (.error e, next)) := by
  simp only [feedbackRound, if_pos hr, h]

theorem feedbackRound_of_stopped (hr : ∀ m ∈ circuit.amplifiers, m.status = .stopped) :
    feedbackRound fuel (circuit, held) = .done (some circuit.close) := by
  have hn : ¬ ∃ m ∈ circuit.amplifiers, m.IsRunning := fun ⟨m, hm, hrun⟩ => hrun (hr m hm)
  simp only [feedbackRound, if_neg hn]

theorem feedbackRound_again_mono (hf : fuel ≤ fuel')
    (h : feedbackRound fuel state = .again state') : feedbackRound fuel' state = .again state' := by
  obtain ⟨hr, hround⟩ := feedbackRound_eq_again h
  exact feedbackRound_of_round_ok hr (round_mono hf hround)

theorem feedbackRound_done_mono (hf : fuel ≤ fuel')
    (h : feedbackRound fuel state = .done (some r)) :
    feedbackRound fuel' state = .done (some r) := by
  rcases feedbackRound_eq_done h with ⟨hr, e, he, hround⟩ | ⟨hr, hclose⟩
  · have hfb := feedbackRound_of_round_error hr (round_mono hf hround)
    rw [← he] at hfb
    exact hfb
  · have hfb : feedbackRound fuel' state = _ := feedbackRound_of_stopped hr
    rw [hclose] at hfb
    exact hfb

/-- With enough fuel a loop comes to its end if it does so in pieces. -/
theorem exists_runFeedback
    (hk : stateAfter (feedbackRound fuel) k (circuit.inject signal, []) = some state)
    (hd : feedbackRound fuel' state = .done (some r)) :
    ∃ bound, ∀ n, bound ≤ n → runFeedback n circuit signal = some r := by
  refine ⟨k + (fuel + fuel' + 1), fun n hn => ?_⟩
  obtain ⟨j, rfl⟩ : ∃ j, n = k + (j + 1) := ⟨n - (k + 1), by omega⟩
  have hk' : stateAfter (feedbackRound (k + (j + 1))) k (circuit.inject signal, []) = some state :=
    stateAfter_congr (fun _ _ => feedbackRound_again_mono (by omega)) hk
  have hd' : feedbackRound (k + (j + 1)) state = .done (some r) :=
    feedbackRound_done_mono (by omega) hd
  have hloop : loop (feedbackRound (k + (j + 1))) (k + (j + 1)) (circuit.inject signal, []) =
      some (some r) := by
    rw [loop_add_of_stateAfter hk', loop_succ_of_done hd']
  exact Option.join_eq_some_iff.2 hloop

end Circuit

end Wordcode
