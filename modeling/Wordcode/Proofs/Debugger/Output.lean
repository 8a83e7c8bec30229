import Wordcode.Proofs.Debugger.Course

/-!
# The order of the output panel

The outputs of a program come to the output panel when it is refreshed, and the
line of a fault when the fault is met. A fault is met between two refreshes. So
its line stands behind the outputs that were collected before and in front of
those that were not (`fault_precedes_uncollected`): the panel tells the order in
which things happened exactly if there were none of these.
-/

namespace Wordcode

namespace Debugger

open Machine

variable {fuel : Nat} {d e : Debugger} {m : Machine} {f : Fault} {history : List Machine}
  {action : Action} {r : SessionResult Unit}

/-- The outputs of a program are in the panel up to some, in the order in which they
were sent, and the others are still queued. -/
theorem Course.shows (h : Course d history e) : ∃ shown,
    shown ++ e.machine.outputs.toList = d.machine.outputs.toList ++ sent history ∧
    e.outputLines.toList = d.outputLines.toList ++ shown.map .value := by
  induction h with
  | refl => exact ⟨[], by simp, by simp⟩
  | @step e n history _ hs ih =>
    obtain ⟨shown, ho, hl⟩ := ih
    have hn := e.machine.trades_step.outputs
    rw [after_of_ok hs] at hn
    refine ⟨shown, ?_, hl⟩
    rw [hn, ← List.append_assoc, ho, sent_append, sent_singleton, List.append_assoc]
  | @refresh e f _ _ hr ih =>
    obtain ⟨shown, ho, hl⟩ := ih
    obtain ⟨hmachine, hlines⟩ := of_refresh hr
    refine ⟨shown ++ e.machine.outputs.toList, ?_, ?_⟩
    · rw [hmachine, ← ho]
      exact List.append_nil _
    · rw [hlines, hl, List.append_assoc, List.map_append]
  | mark _ _ _ ih => exact ih

/-- A fault is met in the last step of an action, and what is collected after it
was sent before. -/
theorem Performs.shows (h : Performs d history r) (hm : m ∈ history)
    (hf : m.tryStep.1 = .interrupted (.failed (.fault f))) : ∃ shown,
    shown ++ m.outputs.toList = d.machine.outputs.toList ++ sent history ∧
    (leaves r).outputLines.toList = d.outputLines.toList ++ shown.map .value ++
      .error f.message :: (d.digitLimit.front m.outputs.toList).map .value := by
  have hnot : ∀ {history' e}, Course d history' e → m ∉ history' := fun h hm => by
    rw [h.running m hm] at hf
    cases hf
  cases h with
  | rests h => exact absurd hm (hnot h)
  | @ends e history pause n h hrun ht =>
    obtain ⟨rfl, he, hpause⟩ := ends_of_tick hrun ht
    rcases List.mem_append.1 hm with hm | hm
    · exact absurd hm (hnot h)
    · obtain rfl := List.mem_singleton.1 hm
      obtain rfl := (hpause (.fault f)).2 hf
      obtain ⟨shown, ho, hl⟩ := h.shows
      -- The last step sends nothing: what is queued after it was queued before.
      have hs := sends_of_ends he
      have hn : e.machine.after.outputs.toList = e.machine.outputs.toList := by
        rw [e.machine.trades_step.outputs, hs, List.append_nil]
      refine ⟨shown, ?_, ?_⟩
      · rw [ho, sent_append, sent_singleton, hs, List.append_nil]
      · rw [conclude, report_eq, leaves_refresh.2.1, hn, Array.toList_push, hl, ← h.digitLimit_eq,
          List.append_assoc]
        rfl
  | idles => exact absurd hm List.not_mem_nil
  | marks => exact absurd hm List.not_mem_nil

/-- If a step of an action meets a fault, its line stands in the output panel behind
the outputs that were collected before, and in front of those that were still queued (on
a host that limits digits, up to one that it cannot write). So the panel has all outputs
in the order in which they were sent, and the line of the fault behind them, exactly if
nothing was queued. -/
theorem fault_precedes_uncollected {fuel : Nat} {action : Action} {d : Debugger}
    {r : SessionResult Unit} {m : Machine} {f : Fault} (h : perform fuel action d = some r)
    (hm : m ∈ actionHistory fuel d action)
    (hf : m.tryStep.1 = .interrupted (.failed (.fault f))) :
    (∃ shown, shown ++ m.outputs.toList =
        d.machine.outputs.toList ++ sent (actionHistory fuel d action) ∧
      (leaves r).outputLines.toList = d.outputLines.toList ++ shown.map .value ++
        .error f.message :: (d.digitLimit.front m.outputs.toList).map .value) ∧
    ((leaves r).outputLines.toList = d.outputLines.toList ++
        (d.machine.outputs.toList ++ sent (actionHistory fuel d action)).map .value ++
        [.error f.message] ↔
      m.outputs.toList = []) := by
  obtain ⟨shown, ho, hl⟩ := (performs h).shows hm hf
  refine ⟨⟨shown, ho, hl⟩, ?_⟩
  rw [hl, ← ho, List.map_append, List.append_assoc, List.append_assoc, List.append_assoc,
    List.append_cancel_left_eq, List.append_cancel_left_eq]
  cases m.outputs.toList with
  | nil => simp [DigitLimit.front]
  | cons v vs => simp

/-- An output that is collected before the fault comes, as the steps are made one by one. -/
theorem fault_precedes_uncollected_collected : ∃ first second,
    perform 1 (.step 1) (attach (load [104, 7, 42] [] false)) = some first ∧
    perform 1 (.step 1) (leaves first) = some second ∧
    (leaves second).outputLines.toList =
      [.value 7, .error (Fault.badInstruction 42 2 .unknownOperation).message] := by
  obtain ⟨first, hfirst⟩ : ∃ first,
    perform 1 (.step 1) (attach (load [104, 7, 42] [] false)) = some first := ⟨_, rfl⟩
  obtain ⟨second, hsecond⟩ : ∃ second, perform 1 (.step 1) (leaves first) = some second := ⟨_, rfl⟩
  have hstate : (leaves first).outputLines.toList = [.value 7] ∧
      (leaves first).machine.outputs.toList = [] ∧
      sent (actionHistory 1 (leaves first) (.step 1)) = [] ∧
      (leaves first).machine ∈ actionHistory 1 (leaves first) (.step 1) ∧
      (leaves first).machine.tryStep.1 =
        .interrupted (.failed (.fault (.badInstruction 42 2 .unknownOperation))) := by
    cases hfirst
    decide +kernel
  obtain ⟨hlines, houtputs, hsent, hm, hf⟩ := hstate
  have hlast := ((fault_precedes_uncollected hsecond hm hf).2.2 houtputs)
  rw [hlines, houtputs, hsent] at hlast
  exact ⟨first, second, hfirst, hsecond, hlast⟩

/-- The same in one action: the line of the fault comes first, though the output was sent
before. -/
theorem fault_line_before_output : ∃ r m,
    perform 1 (.step 10) (attach (load [104, 7, 42] [] false)) = some r ∧
    m ∈ actionHistory 1 (attach (load [104, 7, 42] [] false)) (.step 10) ∧
    m.tryStep.1 = .interrupted (.failed (.fault (.badInstruction 42 2 .unknownOperation))) ∧
    sent (actionHistory 1 (attach (load [104, 7, 42] [] false)) (.step 10)) = [7] ∧
    (leaves r).outputLines.toList =
      [.error (Fault.badInstruction 42 2 .unknownOperation).message, .value 7] :=
  ⟨_, (load [104, 7, 42] [] false).after, rfl, by decide +kernel⟩

end Debugger

end Wordcode
