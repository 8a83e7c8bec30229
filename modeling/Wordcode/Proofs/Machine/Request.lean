import Wordcode.Proofs.Machine.Run

/-!
# What a host asks of a machine

A host has a machine step or run, gives it inputs and takes its outputs, in any
order, and goes on after a call that has failed. Each such call is a request,
and the machine replies (`respond`).

Whatever the request, the machine makes some steps, which are its history, and
then exchanges values with the host (`respond_steps`). So what every step keeps
and no exchange affects holds of all machines that requests lead to
(`respondAll_steps`, and `respondAll_keep` where the history plays no part).
-/

namespace Wordcode

/-- A call to a machine. -/
inductive Request where
  | step
  | run
  | runUntilOutput
  | tryStep
  | tryRun
  | addInputs (values : List Int)
  | drainOutputs

/-- What a machine replies to a request. -/
inductive Reply where
  /-- The status after a step, or why it failed. -/
  | stepped (result : Except Failure Status)
  /-- The machine has halted, or was interrupted. -/
  | ran (result : Except Interrupt Unit)
  /-- The next output, unless there is none. -/
  | sought (result : Except Interrupt (Option Int))
  /-- How a step or a run ended. -/
  | tried (outcome : Outcome)
  /-- The inputs are queued. -/
  | queued
  /-- All outputs that were not handed out. -/
  | drained (values : List Int)

/-- The values that a request adds to the inputs. -/
def Request.added : Request → List Int
  | .addInputs values => values
  | _ => []

/-- The values that a reply hands out. -/
def Reply.handed : Reply → List Int
  | .sought (.ok (some value)) => [value]
  | .drained values => values
  | _ => []

namespace Machine

/-- The reply to a request, and the machine afterwards. There is none if the
machine would run on after `fuel` rounds. -/
def respond (fuel : Nat) (m : Machine) : Request → Option (Reply × Machine)
  | .step =>
    match Machine.step m with
    | .ok status n => some (.stepped (.ok status), n)
    | .error failure n => some (.stepped (.error failure), n)
  | .run => (m.run fuel).map fun (result, n) => (.ran result, n)
  | .runUntilOutput => (m.runUntilOutput fuel).map fun (result, n) => (.sought result, n)
  | .tryStep => some (.tried m.tryStep.1, m.tryStep.2)
  | .tryRun => (m.tryRun fuel).map fun (outcome, n) => (.tried outcome, n)
  | .addInputs values => some (.queued, m.addInputs values)
  | .drainOutputs => some (.drained m.drainOutputs.1, m.drainOutputs.2)

/-- The replies to requests that are made one after another. -/
def respondAll (fuel : Nat) (m : Machine) : List Request → Option (List Reply × Machine)
  | [] => some ([], m)
  | request :: requests => do
    let (reply, n) ← m.respond fuel request
    let (replies, n) ← n.respondAll fuel requests
    return (reply :: replies, n)

/-- A run up to the next output makes a step on the machine. -/
def Seeking (m : Machine) : Prop := m.outputs.toList = [] ∧ m.IsRunning

instance (m : Machine) : Decidable m.Seeking :=
  inferInstanceAs (Decidable (m.outputs.toList = [] ∧ m.IsRunning))

/-- The machine as each step found it that was made for a request. -/
def requestHistory (fuel : Nat) (m : Machine) : Request → List Machine
  | .step | .tryStep => [m]
  | .run | .tryRun => visited runRound fuel m
  | .runUntilOutput => (visited outputRound fuel m).filter (·.Seeking)
  | .addInputs _ | .drainOutputs => []

/-- The machine as each step found it that was made for requests. -/
def history (fuel : Nat) (m : Machine) : List Request → List Machine
  | [] => []
  | request :: requests =>
    m.requestHistory fuel request ++
      match m.respond fuel request with
      | none => []
      | some (_, n) => n.history fuel requests

variable {fuel : Nat} {m n t : Machine} {request : Request} {requests : List Request}
  {reply : Reply} {replies : List Reply} {h : List Machine} {P : List Machine → Machine → Prop}

/-! ## The steps of a request -/

theorem after_of_runRound {r : Except Interrupt Unit} (hr : runRound m = .done (r, n)) :
    m.after = n := by
  unfold runRound at hr
  split at hr
  · cases hr
  all_goals
    next hs =>
      cases hr
      first | exact after_of_ok hs | exact after_of_error hs

/-- What every step keeps, together with the history, a run keeps. -/
theorem run_keep (hP : ∀ h m, P h m → P (h ++ [m]) m.after) (hm : P h m)
    {r : Except Interrupt Unit} (hr : m.run fuel = some (r, n)) :
    P (h ++ visited runRound fuel m) n := by
  obtain ⟨k, t, -, hk, ht, hv⟩ := exists_stateAfter_of_loop hr
  have hkeep : ∀ l a b, P l a → runRound a = .again b → P (l ++ [a]) b := by
    intro l a b hl hab
    rw [← after_of_ok (step_of_runRound hab)]
    exact hP l a hl
  rw [hv, ← List.append_assoc, ← after_of_runRound ht]
  exact hP _ _ (stateAfter_keep hkeep hm hk)

theorem filter_of_seeking (hm : m.Seeking) : [m].filter (·.Seeking) = [m] :=
  List.filter_cons_of_pos (decide_eq_true hm)

theorem filter_of_not_seeking (hm : ¬ m.Seeking) : [m].filter (·.Seeking) = [] :=
  List.filter_cons_of_neg (by rwa [decide_eq_true_eq])

/-- What every step keeps, together with the history, a run up to the next output
keeps until it hands that out. -/
theorem runUntilOutput_keep (hP : ∀ h m, P h m → P (h ++ [m]) m.after) (hm : P h m)
    {r : Except Interrupt (Option Int)} (hr : m.runUntilOutput fuel = some (r, n)) :
    ∃ t q, P (h ++ m.requestHistory fuel .runUntilOutput) t ∧ n = { t with outputs := q } ∧
      (Reply.sought r).handed ++ q.toList = t.outputs.toList := by
  obtain ⟨k, t, -, hk, ht, hv⟩ := exists_stateAfter_of_loop hr
  let Q : List Machine → Machine → Prop := fun l a => P (h ++ l.filter (·.Seeking)) a
  have hstep : ∀ l a, Q l a → a.Seeking → Q (l ++ [a]) a.after := by
    intro l a hl ha
    show P (h ++ (l ++ [a]).filter (·.Seeking)) a.after
    rw [List.filter_append, filter_of_seeking ha, ← List.append_assoc]
    exact hP _ a hl
  have hagain : ∀ l a b, Q l a → outputRound a = .again b → Q (l ++ [a]) b := by
    intro l a b hl hab
    have hs := a.seeks
    rw [hab] at hs
    cases hs with
    | stepped ho hs h =>
      rw [← after_of_ok h]
      exact hstep l a hl ⟨ho, hs⟩
  have h0 : Q [] m := by
    show P (h ++ []) m
    rwa [List.append_nil]
  have hlast : Q (visited outputRound k m) t := stateAfter_keep hagain h0 hk
  have hidle : ¬ t.Seeking → Q (visited outputRound k m ++ [t]) t := by
    intro hn
    show P (h ++ (visited outputRound k m ++ [t]).filter (·.Seeking)) t
    rw [List.filter_append, filter_of_not_seeking hn, List.append_nil]
    exact hlast
  show ∃ t q, P (h ++ (visited outputRound fuel m).filter (·.Seeking)) t ∧ _
  rw [hv]
  have hs := t.seeks
  rw [ht] at hs
  cases hs with
  | @found v q hp =>
    have ho := Queue.pop?_eq_some_iff.1 hp
    have hn : ¬ t.Seeking := fun hn => by cases ho.symm.trans hn.1
    exact ⟨t, q, hidle hn, rfl, ho.symm⟩
  | exhausted ho hs => exact ⟨n, n.outputs, hidle fun hn => hn.2 hs, rfl, rfl⟩
  | blocked ho hs h => exact ⟨n, n.outputs, after_of_ok h ▸ hstep _ t hlast ⟨ho, hs⟩, rfl, rfl⟩
  | failed ho hs h => exact ⟨n, n.outputs, after_of_error h ▸ hstep _ t hlast ⟨ho, hs⟩, rfl, rfl⟩

/-- A request has the machine make the steps of its history, and then exchange
values with the host. -/
theorem respond_steps (hP : ∀ h m, P h m → P (h ++ [m]) m.after) (hm : P h m)
    (hr : m.respond fuel request = some (reply, n)) :
    ∃ t q, P (h ++ m.requestHistory fuel request) t ∧
      n = { t with inputs := t.inputs.extend request.added, outputs := q } ∧
      reply.handed ++ q.toList = t.outputs.toList := by
  have hstill : ∀ t : Machine, t = { t with inputs := t.inputs.extend [], outputs := t.outputs } :=
    fun t => by rw [Queue.extend_nil]
  cases request with
  | step =>
    cases hs : step m with
    | ok s t =>
      simp only [respond, hs] at hr
      cases hr
      exact ⟨n, n.outputs, after_of_ok hs ▸ hP h m hm, hstill n, rfl⟩
    | error f t =>
      simp only [respond, hs] at hr
      cases hr
      exact ⟨n, n.outputs, after_of_error hs ▸ hP h m hm, hstill n, rfl⟩
  | run =>
    obtain ⟨p, hp, hpr⟩ := Option.map_eq_some_iff.1 hr
    cases hpr
    exact ⟨p.2, p.2.outputs, run_keep hP hm hp, hstill _, rfl⟩
  | runUntilOutput =>
    obtain ⟨p, hp, hpr⟩ := Option.map_eq_some_iff.1 hr
    cases hpr
    obtain ⟨t, q, ht, hn, hq⟩ := runUntilOutput_keep hP hm hp
    refine ⟨t, q, ht, ?_, hq⟩
    show p.2 = { t with inputs := t.inputs.extend [], outputs := q }
    rw [Queue.extend_nil, hn]
  | tryStep =>
    cases hr
    refine ⟨m.after, m.after.outputs, hP h m hm, ?_, rfl⟩
    rw [tryStep_snd]
    exact hstill _
  | tryRun =>
    obtain ⟨p, hp, hpr⟩ := Option.map_eq_some_iff.1 hr
    cases hpr
    obtain ⟨⟨r, t⟩, hrun, ht⟩ := Option.map_eq_some_iff.1 hp
    have hpt : p.2 = t := by
      cases r <;> cases ht <;> rfl
    rw [hpt]
    exact ⟨t, t.outputs, run_keep hP hm hrun, hstill t, rfl⟩
  | addInputs values =>
    cases hr
    refine ⟨m, m.outputs, ?_, rfl, rfl⟩
    rwa [requestHistory, List.append_nil]
  | drainOutputs =>
    cases hr
    refine ⟨m, ∅, ?_, ?_, List.append_nil _⟩
    · rwa [requestHistory, List.append_nil]
    · show _ = { m with inputs := m.inputs.extend [], outputs := ∅ }
      rw [Queue.extend_nil]
      rfl

/-! ## Several requests -/

theorem respondAll_of_respond {p : Reply × Machine} (h : m.respond fuel request = some p) :
    m.respondAll fuel (request :: requests) =
      (p.2.respondAll fuel requests).map fun q => (p.1 :: q.1, q.2) := by
  simp only [respondAll, h, bind, Option.bind_some]
  cases p.2.respondAll fuel requests <;> rfl

theorem respondAll_of_respond_eq_none (h : m.respond fuel request = none) :
    m.respondAll fuel (request :: requests) = none := by
  simp only [respondAll, h, bind, Option.bind_none]

/-- Requests that are all replied to are replied to one by one. -/
theorem respondAll_cons (hr : m.respondAll fuel (request :: requests) = some (replies, n)) :
    ∃ reply t rest, m.respond fuel request = some (reply, t) ∧
      t.respondAll fuel requests = some (rest, n) ∧ replies = reply :: rest := by
  obtain ⟨⟨reply, t⟩, ht, hr⟩ := Option.bind_eq_some_iff.1 hr
  obtain ⟨⟨rest, n'⟩, hrest, hr⟩ := Option.bind_eq_some_iff.1 hr
  cases hr
  exact ⟨reply, t, rest, ht, hrest, rfl⟩

/-- What every step keeps, together with the history, and no exchange affects holds
of every machine that requests lead to, with the steps made for them. -/
theorem respondAll_steps (hstep : ∀ h m, P h m → P (h ++ [m]) m.after)
    (hqueues : ∀ (h : List Machine) (m : Machine) p q, P h m →
      P h { m with inputs := p, outputs := q }) (hm : P h m)
    (hr : m.respondAll fuel requests = some (replies, n)) : P (h ++ m.history fuel requests) n := by
  induction requests generalizing h m replies with
  | nil =>
    cases hr
    rw [history, List.append_nil]
    exact hm
  | cons request requests ih =>
    obtain ⟨reply, t, rest, ht, hrest, -⟩ := respondAll_cons hr
    obtain ⟨u, q, hu, htu, -⟩ := respond_steps hstep hm ht
    have hn := ih (m := t) (htu ▸ hqueues _ u _ q hu) hrest
    simp only [history, ht]
    rwa [← List.append_assoc]

/-- What every step keeps and no exchange affects holds of every machine that
requests lead to. -/
theorem respondAll_keep {P : Machine → Prop} (hstep : ∀ m, P m → P m.after)
    (hqueues : ∀ (m : Machine) p q, P m → P { m with inputs := p, outputs := q }) (hm : P m)
    (hr : m.respondAll fuel requests = some (replies, n)) : P n :=
  @respondAll_steps fuel m n requests replies [] (fun _ => P) (fun _ m => hstep m)
    (fun _ m p q => hqueues m p q) hm hr

end Machine

end Wordcode
