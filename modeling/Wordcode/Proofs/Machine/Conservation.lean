import Wordcode.Proofs.Machine.Request

/-!
# No value is lost

A machine takes its inputs in the order in which they were given to it, and
hands its outputs out in the order in which it has sent them. What it was given
and has not taken is queued, and so is what it has sent and not handed out. So
the queues are just what is missing from the one list to the other, whatever
the host has asked for and even if calls have failed (`values_conserved`).
-/

namespace Wordcode

namespace Machine

variable {fuel : Nat} {m n o : Machine} {request : Request} {requests : List Request}
  {reply : Reply} {replies : List Reply} {given given' handed handed' : List Int}
  {g h : List Machine}

/-- Between `m` and `n` a host has given and was handed values, and the machine
has made the steps of the history `h`. -/
structure Balances (m n : Machine) (given handed : List Int) (h : List Machine) : Prop where
  inputs : m.inputs.toList ++ given = taken h ++ n.inputs.toList
  outputs : m.outputs.toList ++ sent h = handed ++ n.outputs.toList
  taken : n.counters.inputs = m.counters.inputs + (taken h).length
  sent : n.counters.outputs = m.counters.outputs + (sent h).length

namespace Balances

theorem refl (m : Machine) : Balances m m [] [] [] :=
  ⟨List.append_nil _, List.append_nil _, rfl, rfl⟩

theorem trans (hm : Balances m n given handed g) (hn : Balances n o given' handed' h) :
    Balances m o (given ++ given') (handed ++ handed') (g ++ h) where
  inputs := by
    rw [taken_append, ← List.append_assoc, hm.inputs, List.append_assoc, hn.inputs,
      List.append_assoc]
  outputs := by
    rw [sent_append, ← List.append_assoc, hm.outputs, List.append_assoc, hn.outputs,
      List.append_assoc]
  taken := by rw [hn.taken, hm.taken, taken_append, List.length_append, Nat.add_assoc]
  sent := by rw [hn.sent, hm.sent, sent_append, List.length_append, Nat.add_assoc]

end Balances

/-- A request takes and sends what its steps do, and the host adds and is handed
the rest. -/
theorem respond_balances (hr : m.respond fuel request = some (reply, n)) :
    Balances m n request.added reply.handed (m.requestHistory fuel request) := by
  let P : List Machine → Machine → Prop := fun h a => Trades m a (taken h) (sent h)
  have hstep : ∀ h a, P h a → P (h ++ [a]) a.after := fun h a ha => trades_after ha
  have hm : P [] m := .refl m
  obtain ⟨t, q, ht, rfl, hq⟩ := respond_steps hstep hm hr
  have hinputs : taken (m.requestHistory fuel request) ++ t.inputs.toList = m.inputs.toList :=
    ht.inputs
  refine ⟨?_, ht.outputs.symm.trans hq.symm, ht.taken, ht.sent⟩
  rw [Queue.toList_extend, ← List.append_assoc, hinputs]

theorem respondAll_balances (hr : m.respondAll fuel requests = some (replies, n)) :
    Balances m n (requests.flatMap Request.added) (replies.flatMap Reply.handed)
      (m.history fuel requests) := by
  induction requests generalizing m replies with
  | nil =>
    cases hr
    exact .refl _
  | cons request requests ih =>
    obtain ⟨reply, t, rest, ht, hrest, rfl⟩ := respondAll_cons hr
    simp only [history, ht, List.flatMap_cons]
    exact (respond_balances ht).trans (ih hrest)

/-- Whatever a host asks of a machine: all inputs that it has given are, in their
order, those that were taken and then those that are queued, and all outputs
that were sent are those that it was handed and then those that are queued. The
machine has counted what was taken and sent. -/
theorem values_conserved (program inputs : List Int) (verbose : Bool) (fuel : Nat)
    (requests : List Request) {replies : List Reply} {m : Machine}
    (hr : (load program inputs verbose).respondAll fuel requests = some (replies, m)) :
    inputs ++ requests.flatMap Request.added =
        taken ((load program inputs verbose).history fuel requests) ++ m.inputs.toList ∧
      m.counters.inputs = (taken ((load program inputs verbose).history fuel requests)).length ∧
      sent ((load program inputs verbose).history fuel requests) =
        replies.flatMap Reply.handed ++ m.outputs.toList ∧
      m.counters.outputs = (sent ((load program inputs verbose).history fuel requests)).length := by
  have hb := respondAll_balances hr
  have hinputs : (load program inputs verbose).inputs.toList = inputs := Queue.toList_ofList
  refine ⟨?_, ?_, hb.outputs, ?_⟩
  · rw [← hb.inputs, hinputs]
  · exact hb.taken.trans (Nat.zero_add _)
  · exact hb.sent.trans (Nat.zero_add _)

/-- The machine waits, hands out the first of the values that it is then given,
and takes the second in vain: it is to be stored at a negative address. -/
theorem values_conserved_taken_in_vain : ∃ replies m,
    (load [3, 9, 4, 9, 3, -1, 99] [] false).respondAll 9
      [.run, .addInputs [5, 6, 7], .runUntilOutput, .tryRun] = some (replies, m) ∧
    [5, 6, 7] = [5, 6] ++ m.inputs.toList ∧ m.counters.inputs = 2 ∧
    [5] = replies.flatMap Reply.handed ++ m.outputs.toList ∧ m.counters.outputs = 1 := by
  have hr : ((load [3, 9, 4, 9, 3, -1, 99] [] false).respondAll 9
      [.run, .addInputs [5, 6, 7], .runUntilOutput, .tryRun]).isSome := by decide +kernel
  have htaken : taken ((load [3, 9, 4, 9, 3, -1, 99] [] false).history 9
      [.run, .addInputs [5, 6, 7], .runUntilOutput, .tryRun]) = [5, 6] := by decide +kernel
  have hsent : sent ((load [3, 9, 4, 9, 3, -1, 99] [] false).history 9
      [.run, .addInputs [5, 6, 7], .runUntilOutput, .tryRun]) = [5] := by decide +kernel
  obtain ⟨⟨replies, m⟩, hr⟩ := Option.isSome_iff_exists.1 hr
  have h := values_conserved _ _ _ _ _ hr
  rw [htaken, hsent] at h
  exact ⟨replies, m, hr, h⟩

end Machine

end Wordcode
