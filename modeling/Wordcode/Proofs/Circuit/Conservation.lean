import Wordcode.Proofs.Circuit.Sweep

/-!
# No message is lost

What is on its way to an amplifier of a feedback loop lies in its inputs, in the
outputs of the one before, or, for the first amplifier, with the loop, which
holds what the last one handed out in the round before. Together with what the
amplifier has taken this is, in that order, all that was ever sent to it
(`Balanced`). So no message is lost, none is duplicated, and none overtakes
another: after every round, and when the loop is left (`feedback_conserves`).
-/

namespace Wordcode

open Machine

namespace Circuit

variable {fuel k n : Nat} {phases program : List Int} {signal v : Int} {ms : List Machine}
  {held : List Int} {g : Nat → List Machine} {circuit next : Circuit} {journal : Journal}
  {r : Except Interrupt Swept} {swept : Swept} {w : Nat → List Int} {e : CircuitError}

/-- Amplifiers with the histories `g` between which no message was lost. Their
histories are complete: they count what the amplifiers have counted. -/
structure Balanced (phases : List Int) (signal : Int) (ms : List Machine) (held : List Int)
    (g : Nat → List Machine) : Prop where
  length : ms.length = phases.length
  counted : ∀ i a, ms[i]? = some a →
    a.counters.inputs = (taken (g i)).length ∧ a.counters.outputs = (sent (g i)).length
  between : ∀ i a b phase, ms[i]? = some a → ms[i + 1]? = some b → phases[i + 1]? = some phase →
    phase :: sent (g i) = taken (g (i + 1)) ++ b.inputs.toList ++ a.outputs.toList
  around : ∀ a b phase, ms[ms.length - 1]? = some a → ms[0]? = some b → phases[0]? = some phase →
    phase :: signal :: sent (g (ms.length - 1)) =
      taken (g 0) ++ b.inputs.toList ++ held ++ a.outputs.toList

/-- A round keeps the balance, however it ends. -/
theorem Balanced.passes (h : Balanced phases signal circuit.amplifiers held g)
    (hs : Passes fuel circuit held r next w) :
    Balanced phases signal next.amplifiers (carried r)
      fun i => g i ++ sweepHistory fuel circuit.amplifiers held i := by
  refine ⟨hs.length.trans h.length, fun i b hb => ?_, fun i a b phase ha hb hphase => ?_,
    fun a b phase ha hb hphase => ?_⟩
  · obtain ⟨a, n, ha, rfl, hab⟩ := hs.serves i b hb
    obtain ⟨-, -, htaken, hsent⟩ := hab.trades
    obtain ⟨hct, hcs⟩ := h.counted i a ha
    rw [taken_append, sent_append, List.length_append, List.length_append, ← hct, ← hcs]
    exact ⟨htaken, hsent⟩
  · obtain ⟨a₀, na, ha₀, rfl, haa⟩ := hs.serves i a ha
    obtain ⟨b₀, nb, hb₀, rfl, hbb⟩ := hs.serves (i + 1) b hb
    have hsent := haa.trades.2.1
    have htaken := hbb.trades.1
    have hbefore := h.between i a₀ b₀ phase ha₀ hb₀ hphase
    show _ = _ ++ nb.inputs.toList ++ na.outputs.toList
    rw [sent_append, taken_append, ← List.cons_append, hbefore, List.append_assoc, ← hsent,
      ← List.append_assoc, List.append_assoc _ b₀.inputs.toList, ← htaken]
    simp only [List.append_assoc]
  · rw [hs.length] at ha ⊢
    obtain ⟨a₀, na, ha₀, rfl, haa⟩ := hs.serves _ a ha
    obtain ⟨b₀, nb, hb₀, rfl, hbb⟩ := hs.serves 0 b hb
    have hsent := haa.trades.2.1
    have htaken := hbb.trades.1
    rw [Nat.sub_add_cancel (Nat.one_le_of_lt (List.getElem?_eq_some_iff.1 ha₀).1), hs.last] at hsent
    rw [hs.first] at htaken
    have hbefore := h.around a₀ b₀ phase ha₀ hb₀ hphase
    show _ = _ ++ nb.inputs.toList ++ carried r ++ na.outputs.toList
    rw [sent_append, taken_append, ← List.cons_append, ← List.cons_append, hbefore,
      List.append_assoc, ← hsent, ← List.append_assoc, List.append_assoc _ b₀.inputs.toList,
      ← htaken]
    simp only [List.append_assoc]

/-! ## Feedback loops -/

/-- The balance of a feedback loop between two rounds. All outputs are handed
on, and the loop knows the last values that the last amplifier has sent. -/
structure Flowing (phases : List Int) (signal : Int) (g : Nat → List Machine)
    (state : Circuit × List Int) : Prop where
  balanced : Balanced phases signal state.1.amplifiers state.2 g
  drained : ∀ (i : Nat) (a : Machine), state.1.amplifiers[i]? = some a → a.outputs.toList = []
  held : state.2 <:+ sent (g (phases.length - 1))
  signal : state.1.signal = (sent (g (phases.length - 1))).getLast?

/-- What the last amplifier sends in a round is what the round hands out. -/
theorem Flowing.sent_last (h : Flowing phases signal g (circuit, held))
    (hs : Passes fuel circuit held (.ok swept) next w) (hn : circuit.amplifiers ≠ []) :
    sent (sweepHistory fuel circuit.amplifiers held (phases.length - 1)) = swept.outputs := by
  have hlen : circuit.amplifiers.length = phases.length := h.balanced.length
  have hpos : 0 < phases.length := hlen ▸ List.length_pos_iff.2 hn
  have hlt : phases.length - 1 < next.amplifiers.length := by
    have hnext := hs.length
    omega
  obtain ⟨a, n, ha, hb, hab⟩ := hs.serves _ _ (List.getElem?_eq_getElem hlt)
  have hsent := hab.trades.2.1
  rw [hab.dormant.drained, h.drained _ a ha, List.append_nil, List.nil_append,
    Nat.sub_add_cancel hpos, ← hlen, hs.last] at hsent
  rw [← hlen]
  exact hsent.symm

/-- A round that the loop goes on after. -/
theorem Flowing.round (h : Flowing phases signal g (circuit, held))
    (hn : circuit.amplifiers ≠ []) {held' : List Int}
    (hs : circuit.round fuel held = some (.ok held', next)) :
    Flowing phases signal (fun i => g i ++ sweepHistory fuel circuit.amplifiers held i)
      (next, held') := by
  obtain ⟨r, w, hc, hp⟩ := round_passes hs
  cases hc with
  | @passed swept hsignal =>
    have hlast := h.sent_last hp hn
    refine ⟨h.balanced.passes hp, fun i b hb => ?_, ?_, ?_⟩
    · obtain ⟨a, n, -, rfl, hab⟩ := hp.serves i b hb
      exact hab.dormant.drained
    · rw [sent_append, hlast]
      exact List.suffix_append ..
    · show next.signal = _
      have hbefore : circuit.signal = _ := h.signal
      rw [sent_append, hlast, List.getLast?_append, ← hbefore]
      exact hsignal

/-- A round without progress hands out nothing. -/
theorem Flowing.outputs_of_idle (h : Flowing phases signal g (circuit, held))
    (hs : Passes fuel circuit held (.ok swept) next w) (hn : circuit.amplifiers ≠ [])
    (hidle : swept.progressed = false) : swept.outputs = [] := by
  have hlt : phases.length - 1 < next.amplifiers.length := by
    have hpos := List.length_pos_iff.2 hn
    have hlen : circuit.amplifiers.length = phases.length := h.balanced.length
    have hnext := hs.length
    omega
  obtain ⟨a, n, -, -, hab⟩ := hs.serves _ _ (List.getElem?_eq_getElem hlt)
  rw [← h.sent_last hs hn]
  exact (hab.idle hidle).1

/-- A round that the loop is left in. -/
theorem Flowing.round_error (h : Flowing phases signal g (circuit, held))
    (hn : circuit.amplifiers ≠ []) (hs : circuit.round fuel held = some (.error e, next)) :
    Balanced phases signal next.amplifiers []
      fun i => g i ++ sweepHistory fuel circuit.amplifiers held i := by
  obtain ⟨r, w, hc, hp⟩ := round_passes hs
  have hb := h.balanced.passes hp
  cases hc with
  | interrupted => exact hb
  | @deadlocked swept hidle hw =>
    have hcarried : carried (.ok swept) = [] := h.outputs_of_idle hp hn hidle
    rw [hcarried] at hb
    exact hb

/-! ## Fresh circuits -/

/-- What is queued at the `i`-th amplifier before a feedback loop. -/
def firstInputs (phase signal : Int) (i : Nat) : List Int :=
  phase :: if i = 0 then [signal] else []

theorem addInputs_load {vs ws : List Int} {verbose : Bool} :
    (load program vs verbose).addInputs ws = load program (vs ++ ws) verbose := by
  have hq : (Queue.ofList vs).extend ws = Queue.ofList (vs ++ ws) := Queue.ext (by simp)
  simp only [load, addInputs, hq]

theorem build_eq_ok (hb : build program phases journal = .ok circuit) :
    phases ≠ [] ∧ circuit.signal = none ∧
      circuit.amplifiers = phases.map fun phase => load program [phase] journal.verbose := by
  unfold build at hb
  split at hb
  · cases hb
  · next hne =>
    cases hb
    exact ⟨by simpa using hne, rfl, rfl⟩

theorem length_inject : (circuit.inject v).amplifiers.length = circuit.amplifiers.length := by
  unfold inject
  split
  · rfl
  · next h =>
    rw [h]
    rfl

theorem signal_inject : (circuit.inject v).signal = circuit.signal := by
  unfold inject
  split <;> rfl

theorem fresh_amplifier (hb : build program phases journal = .ok circuit) {i : Nat} {a : Machine}
    (ha : (circuit.inject signal).amplifiers[i]? = some a) :
    ∃ phase, phases[i]? = some phase ∧
      a = load program (firstInputs phase signal i) journal.verbose := by
  obtain ⟨hne, -, hams⟩ := build_eq_ok hb
  obtain ⟨phase, rest, rfl⟩ := List.exists_cons_of_ne_nil hne
  simp only [inject, hams, List.map_cons] at ha
  cases i with
  | zero =>
    cases ha
    exact ⟨phase, rfl, addInputs_load⟩
  | succ i =>
    rw [List.getElem?_cons_succ, List.getElem?_map] at ha
    obtain ⟨q, hq, rfl⟩ := Option.map_eq_some_iff.1 ha
    exact ⟨q, hq, rfl⟩

theorem flowing_start (hb : build program phases journal = .ok circuit) :
    Flowing phases signal (fun _ => []) (circuit.inject signal, []) := by
  obtain ⟨-, hsignal, hams⟩ := build_eq_ok hb
  have hlen : (circuit.inject signal).amplifiers.length = phases.length := by
    rw [length_inject, hams, List.length_map]
  refine ⟨⟨hlen, fun i a ha => ?_, fun i a b phase ha hb' hphase => ?_,
    fun a b phase ha hb' hphase => ?_⟩, fun i a ha => ?_, List.suffix_refl _, ?_⟩
  · obtain ⟨q, -, rfl⟩ := fresh_amplifier hb ha
    exact ⟨rfl, rfl⟩
  · obtain ⟨q, -, rfl⟩ := fresh_amplifier hb ha
    obtain ⟨q', hq', rfl⟩ := fresh_amplifier hb hb'
    cases hq'.symm.trans hphase
    rfl
  · obtain ⟨q, -, rfl⟩ := fresh_amplifier hb ha
    obtain ⟨q', hq', rfl⟩ := fresh_amplifier hb hb'
    cases hq'.symm.trans hphase
    rfl
  · obtain ⟨q, -, rfl⟩ := fresh_amplifier hb ha
    rfl
  · exact signal_inject.trans hsignal

theorem flowing_of_feedback (hb : build program phases journal = .ok circuit)
    {state : Circuit × List Int}
    (hk : stateAfter (feedbackRound fuel) k (circuit.inject signal, []) = some state) :
    Flowing phases signal (feedbackHistory fuel k (circuit.inject signal, [])) state := by
  refine feedback_keep (fun g c held next held' h hr hs => h.round ?_ hs) (flowing_start hb) hk
  obtain ⟨m, hm, -⟩ := hr
  exact List.ne_nil_of_mem hm

theorem balanced_of_error (hb : build program phases journal = .ok circuit)
    (h : runFeedback fuel circuit signal = some (.error e, next)) :
    Balanced phases signal next.amplifiers []
      (feedbackHistory fuel fuel (circuit.inject signal, [])) := by
  obtain ⟨k, last, held, hk, ⟨⟨m, hm, -⟩, ⟨e', -, hround⟩, hh⟩ | ⟨-, hclose, hh⟩⟩ :=
    runFeedback_cases h
  · rw [hh]
    exact (flowing_of_feedback hb hk).round_error (List.ne_nil_of_mem hm) hround
  · have hf := flowing_of_feedback hb hk
    obtain ⟨-, hnone, hnext⟩ := close_eq_error hclose
    -- A last amplifier that has sent nothing leaves nothing to hold.
    have hheld : held <:+ sent (feedbackHistory fuel k _ (phases.length - 1)) := hf.held
    rw [List.getLast?_eq_none_iff.1 (hf.signal.symm.trans hnone), List.suffix_nil] at hheld
    subst hheld
    rw [hh, hnext]
    exact hf.balanced

theorem getLast?_sent_of_ok (hb : build program phases journal = .ok circuit)
    (h : runFeedback fuel circuit signal = some (.ok v, next)) :
    (sent (feedbackHistory fuel fuel (circuit.inject signal, []) (phases.length - 1))).getLast? =
      some v := by
  obtain ⟨k, last, held, hk, ⟨-, ⟨e', he, -⟩, -⟩ | ⟨-, hclose, hh⟩⟩ := runFeedback_cases h
  · cases he
  · rw [hh, ← (flowing_of_feedback hb hk).signal]
    exact (close_eq_ok hclose).1

/-- The messages of a feedback loop are in balance after every round and
whenever an error leaves the loop, which then holds none itself. What the loop
returns is the last message of the last amplifier. -/
theorem feedback_conserves (program phases : List Int) (signal : Int) (journal : Journal)
    (fuel : Nat) {circuit : Circuit} (hb : build program phases journal = .ok circuit) :
    (∀ k next held,
      stateAfter (feedbackRound fuel) k (circuit.inject signal, []) = some (next, held) →
      Balanced phases signal next.amplifiers held
        (feedbackHistory fuel k (circuit.inject signal, []))) ∧
    (∀ e next, runFeedback fuel circuit signal = some (.error e, next) →
      Balanced phases signal next.amplifiers []
        (feedbackHistory fuel fuel (circuit.inject signal, []))) ∧
    (∀ v next, runFeedback fuel circuit signal = some (.ok v, next) →
      (sent (feedbackHistory fuel fuel (circuit.inject signal, []) (phases.length - 1))).getLast? =
        some v) := by
  refine ⟨fun k next held hk => ?_, fun e next h => ?_, fun v next h => ?_⟩
  · exact (flowing_of_feedback hb hk).balanced
  · exact balanced_of_error hb h
  · exact getLast?_sent_of_ok hb h

theorem exists_of_toOption
    (h : (runFeedback fuel circuit signal).map (·.1.toOption) = some (some v)) :
    ∃ next, runFeedback fuel circuit signal = some (.ok v, next) := by
  obtain ⟨⟨r, next⟩, hr, hv⟩ := Option.map_eq_some_iff.1 h
  cases r with
  | error e => cases hv
  | ok w =>
    cases hv
    exact ⟨next, hr⟩

/-- Two amplifiers, each of which takes its phase and repeats one value. -/
theorem feedback_conserves_repeaters : ∃ circuit next,
    build [3, 0, 3, 1, 4, 1, 99] [5, 6] (.empty false) = .ok circuit ∧
    runFeedback 9 circuit 7 = some (.ok 7, next) ∧
    (sent (feedbackHistory 9 9 (circuit.inject 7, []) 1)).getLast? = some 7 := by
  obtain ⟨circuit, hb⟩ : ∃ circuit,
      build [3, 0, 3, 1, 4, 1, 99] [5, 6] (.empty false) = .ok circuit := ⟨_, rfl⟩
  have hv : (runFeedback 9 circuit 7).map (·.1.toOption) = some (some 7) := by
    cases hb
    decide +kernel
  obtain ⟨next, hnext⟩ := exists_of_toOption hv
  exact ⟨circuit, next, hb, hnext, (feedback_conserves _ _ 7 _ 9 hb).2.2 7 next hnext⟩

end Circuit

end Wordcode
