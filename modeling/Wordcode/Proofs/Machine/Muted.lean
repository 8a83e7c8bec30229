import Wordcode.Proofs.Machine.Alike
import Wordcode.Proofs.Machine.Ended
import Wordcode.Proofs.Machine.Failure

/-!
# What is reported plays no part

A machine does the same whatever it has reported, and whether or not it traces
what it does. So two machines that are equal but for their journals (`muted`)
make equal steps (`step_muted`). Whatever repeats steps and looks at no journal
does not tell them apart either (`run_muted`), and no host does that asks them for
anything but their journals (`respondAll_muted`).
-/

namespace Wordcode

/-- Two answers that look alike through a view of what they leave are both
missing, or have one result. -/
theorem answers_of_map_eq {α β γ : Type} {f : β → γ} {x y : Option (α × β)}
    (h : x.map (Prod.map id f) = y.map (Prod.map id f)) :
    x = none ∧ y = none ∨ ∃ r b c, x = some (r, b) ∧ y = some (r, c) ∧ f b = f c := by
  cases x with
  | none => exact .inl ⟨rfl, Option.map_eq_none_iff.1 h.symm⟩
  | some p =>
    obtain ⟨⟨r, c⟩, rfl, hpc⟩ := Option.map_eq_some_iff.1 h.symm
    obtain ⟨hr, hc⟩ := Prod.mk.inj hpc
    exact .inr ⟨r, p.2, c, congrArg (fun r => some (r, p.2)) hr.symm, rfl, hc.symm⟩

namespace Machine

/-- The machine as if it had reported nothing, and traced nothing. -/
def muted (m : Machine) : Machine := { m with journal := .empty false }

/-- The result of a step, with the machine that it leaves muted. -/
def mutedResult {α : Type} :
    EStateM.Result Failure Machine α → EStateM.Result Failure Machine α
  | .ok x m => .ok x m.muted
  | .error f m => .error f m.muted

variable {m n a : Machine} {s : Status} {f : Failure}

theorem pc_eq_of_muted (h : m.muted = a.muted) : m.pc = a.pc :=
  (congrArg Machine.pc h :)

theorem status_eq_of_muted (h : m.muted = a.muted) : m.status = a.status :=
  (congrArg Machine.status h :)

theorem muted_addInputs (values : List Int) (h : m.muted = a.muted) :
    (m.addInputs values).muted = (a.addInputs values).muted :=
  congrArg (·.addInputs values) h

/-- A step that fails leaves the state of control as it was. -/
theorem status_of_error (h : step m = .error f n) : n.status = m.status := by
  by_cases hm : m.Ended
  · cases (step_of_ended hm).symm.trans h
    rfl
  · obtain ⟨hs, hf⟩ := not_or.1 hm
    obtain ⟨u, hu, -, rfl⟩ := exists_failing_of_error (Decidable.not_not.1 hf) hs h
    exact hu.failing.status

/-! ## Equal but for the journals -/

theorem trails_of_muted (h : m.muted = a.muted) : Trails 0 [] [] m a := by
  simp only [muted, mk.injEq] at h
  obtain ⟨hm, hi, ho, hp, hb, hs, hf, hc, -⟩ := h
  exact ⟨⟨hm, hp, hb, hf, hc, .inl hs⟩, by rw [hi, List.append_nil], by rw [ho, List.nil_append]⟩

theorem Trails.muted_eq (h : Trails 0 [] [] m a) (hs : m.status = a.status) :
    m.muted = a.muted := by
  have hi : m.inputs = a.inputs := Queue.ext (by rw [h.inputs, List.append_nil])
  have ho : m.outputs = a.outputs := Queue.ext h.outputs.symm
  have hc : m.counters = a.counters := h.counters
  simp only [muted, h.memory, h.pc, h.base, h.fault, hc, hi, ho, hs]

theorem running_iff_of_muted (h : m.muted = a.muted) : m.IsRunning ↔ a.IsRunning :=
  (trails_of_muted h).running_iff

/-- Machines that are equal but for their journals make equal steps. -/
theorem step_muted (h : m.muted = a.muted) : mutedResult (step m) = mutedResult (step a) := by
  have ht := trails_of_muted h
  by_cases hm : m.Starves
  · obtain ⟨n, b, hn, hb, hnb⟩ := ht.step_of_starves_both hm
    have hs : n.status = b.status := (status_eq_of_step hn).trans (status_eq_of_step hb).symm
    rw [hn, hb, mutedResult, mutedResult, hnb.muted_eq hs]
  cases hn : step m with
  | ok s n =>
    obtain ⟨b, hb, hs, hnb⟩ := ht.step_of_ok hm hn
    rw [hb, mutedResult, mutedResult, hnb.muted_eq hs]
  | error f n =>
    obtain ⟨b, hb, hnb⟩ := ht.step_of_error hn
    have hs : n.status = b.status := by
      rw [status_of_error hn, status_of_error hb, status_eq_of_muted h]
    rw [hb, mutedResult, mutedResult, hnb.muted_eq hs]

theorem step_ok_of_muted (h : m.muted = a.muted) (hs : step m = .ok s n) :
    ∃ b, step a = .ok s b ∧ n.muted = b.muted := by
  have hr := step_muted h
  rw [hs] at hr
  cases ha : step a with
  | error f b =>
    rw [ha] at hr
    cases hr
  | ok t b =>
    rw [ha] at hr
    injection hr with hst hnb
    exact ⟨b, hst ▸ rfl, hnb⟩

theorem step_error_of_muted (h : m.muted = a.muted) (hs : step m = .error f n) :
    ∃ b, step a = .error f b ∧ n.muted = b.muted := by
  have hr := step_muted h
  rw [hs] at hr
  cases ha : step a with
  | ok t b =>
    rw [ha] at hr
    cases hr
  | error g b =>
    rw [ha] at hr
    injection hr with hfg hnb
    exact ⟨b, hfg ▸ rfl, hnb⟩

/-! ## Runs -/

theorem runRound_muted (h : m.muted = a.muted) :
    (runRound m).map muted (Prod.map id muted) = (runRound a).map muted (Prod.map id muted) := by
  cases hs : step m with
  | error f n =>
    obtain ⟨b, hb, hnb⟩ := step_error_of_muted h hs
    simp only [runRound, hs, hb, Progress.map, Prod.map_apply, id_eq, hnb]
  | ok s n =>
    obtain ⟨b, hb, hnb⟩ := step_ok_of_muted h hs
    cases s with
    | waiting =>
      have hpc := pc_eq_of_muted hnb
      simp only [runRound, hs, hb, Progress.map, Prod.map_apply, id_eq, hnb, hpc]
    | running => simp only [runRound, hs, hb, Progress.map, hnb]
    | stopped => simp only [runRound, hs, hb, Progress.map, Prod.map_apply, id_eq, hnb]

/-- Machines that are equal but for their journals run alike. -/
theorem run_muted (fuel : Nat) (h : m.muted = a.muted) :
    (m.run fuel).map (Prod.map id muted) = (a.run fuel).map (Prod.map id muted) :=
  loop_map_congr (fun _ _ => runRound_muted) h

theorem exists_run_of_muted (h : m.muted = a.muted) {fuel : Nat} {r : Except Interrupt Unit}
    (hr : m.run fuel = some (r, n)) : ∃ b, a.run fuel = some (r, b) ∧ b.muted = n.muted := by
  rcases answers_of_map_eq (run_muted fuel h) with ⟨hm, -⟩ | ⟨r', b, c, hm, ha, hbc⟩
  · cases hm.symm.trans hr
  · cases hm.symm.trans hr
    exact ⟨c, ha, hbc.symm⟩

/-! ## Requests -/

/-- The reply to a request, with the machine that it leaves muted. -/
theorem tryStep_muted (h : m.muted = a.muted) :
    m.tryStep.1 = a.tryStep.1 ∧ m.tryStep.2.muted = a.tryStep.2.muted := by
  cases hs : step m with
  | error f n =>
    obtain ⟨b, hb, hnb⟩ := step_error_of_muted h hs
    rw [tryStep_of_error hs, tryStep_of_error hb]
    exact ⟨rfl, hnb⟩
  | ok s n =>
    obtain ⟨b, hb, hnb⟩ := step_ok_of_muted h hs
    by_cases hw : s = .waiting
    · subst hw
      rw [tryStep_of_waiting hs, tryStep_of_waiting hb, pc_eq_of_muted hnb]
      exact ⟨rfl, hnb⟩
    · rw [tryStep_of_ok hs hw, tryStep_of_ok hb hw]
      exact ⟨rfl, hnb⟩

theorem outputRound_muted (h : m.muted = a.muted) :
    (outputRound m).map muted (Prod.map id muted) =
      (outputRound a).map muted (Prod.map id muted) := by
  have ho : m.outputs = a.outputs := (congrArg Machine.outputs h :)
  have hst := status_eq_of_muted h
  have hr := m.seeks
  generalize outputRound m = r at hr
  cases hr with
  | @found v q hp =>
    have hq : { m with outputs := q }.muted = { a with outputs := q }.muted :=
      (congrArg (fun n : Machine => { n with outputs := q }) h :)
    rw [(Seeks.found (ho ▸ hp)).eq]
    simp only [Progress.map, Prod.map_apply, id_eq, hq]
  | exhausted hn hs =>
    rw [(Seeks.exhausted (ho ▸ hn) (hst ▸ hs)).eq]
    simp only [Progress.map, Prod.map_apply, id_eq, h]
  | stepped hn hs hstep hw =>
    obtain ⟨b, hb, hnb⟩ := step_ok_of_muted h hstep
    rw [(Seeks.stepped (ho ▸ hn) ((running_iff_of_muted h).1 hs) hb hw).eq]
    simp only [Progress.map, hnb]
  | blocked hn hs hstep =>
    obtain ⟨b, hb, hnb⟩ := step_ok_of_muted h hstep
    rw [(Seeks.blocked (ho ▸ hn) ((running_iff_of_muted h).1 hs) hb).eq]
    simp only [Progress.map, Prod.map_apply, id_eq, hnb, pc_eq_of_muted hnb]
  | failed hn hs hstep =>
    obtain ⟨b, hb, hnb⟩ := step_error_of_muted h hstep
    rw [(Seeks.failed (ho ▸ hn) ((running_iff_of_muted h).1 hs) hb).eq]
    simp only [Progress.map, Prod.map_apply, id_eq, hnb]

theorem runUntilOutput_muted (fuel : Nat) (h : m.muted = a.muted) :
    (m.runUntilOutput fuel).map (Prod.map id muted) =
      (a.runUntilOutput fuel).map (Prod.map id muted) :=
  loop_map_congr (fun _ _ => outputRound_muted) h

/-- What is made of two answers that look alike looks alike, if it does for each answer. -/
theorem map_congr_of_map {α β γ : Type} {x y : Option α} {f : α → β} {g : α → γ}
    (hfg : ∀ p q, f p = f q → g p = g q) (h : x.map f = y.map f) : x.map g = y.map g := by
  cases x with
  | none =>
    cases y with
    | none => rfl
    | some q => cases h
  | some p =>
    cases y with
    | none => cases h
    | some q => exact congrArg some (hfg p q (Option.some.inj h))

theorem tryRun_muted (fuel : Nat) (h : m.muted = a.muted) :
    (m.tryRun fuel).map (Prod.map id muted) = (a.tryRun fuel).map (Prod.map id muted) := by
  rw [tryRun, tryRun, Option.map_map, Option.map_map]
  refine map_congr_of_map (fun p q hpq => ?_) (run_muted fuel h)
  obtain ⟨r, n⟩ := p
  obtain ⟨t, b⟩ := q
  obtain ⟨hr, hnb⟩ := Prod.mk.inj hpq
  obtain rfl : r = t := hr
  have hst := status_eq_of_muted hnb
  cases r with
  | ok u => simp only [Function.comp, Prod.map_apply, id_eq, hst, hnb]
  | error interrupt => simp only [Function.comp, Prod.map_apply, id_eq, hnb]

/-- Machines that are equal but for their journals reply alike. -/
theorem respond_muted (fuel : Nat) (request : Request) (h : m.muted = a.muted) :
    (m.respond fuel request).map (Prod.map id muted) =
      (a.respond fuel request).map (Prod.map id muted) := by
  have hpair {α : Type} (reply : α → Reply) (p q : α × Machine)
      (hpq : Prod.map id muted p = Prod.map id muted q) :
      Prod.map id muted (reply p.1, p.2) = Prod.map id muted (reply q.1, q.2) := by
    obtain ⟨hfst, hsnd⟩ := Prod.mk.inj hpq
    exact Prod.ext (congrArg reply hfst) hsnd
  cases request with
  | step =>
    cases hs : step m with
    | error f n =>
      obtain ⟨b, hb, hnb⟩ := step_error_of_muted h hs
      simp only [respond, hs, hb, Option.map_some, Prod.map_apply, id_eq, hnb]
    | ok s n =>
      obtain ⟨b, hb, hnb⟩ := step_ok_of_muted h hs
      simp only [respond, hs, hb, Option.map_some, Prod.map_apply, id_eq, hnb]
  | run =>
    simp only [respond, Option.map_map]
    exact map_congr_of_map (hpair .ran) (run_muted fuel h)
  | runUntilOutput =>
    simp only [respond, Option.map_map]
    exact map_congr_of_map (hpair .sought) (runUntilOutput_muted fuel h)
  | tryStep =>
    obtain ⟨ho, hnb⟩ := tryStep_muted h
    simp only [respond, ho, Option.map_some, Prod.map_apply, id_eq, hnb]
  | tryRun =>
    simp only [respond, Option.map_map]
    exact map_congr_of_map (hpair .tried) (tryRun_muted fuel h)
  | addInputs values =>
    simp only [respond, Option.map_some, Prod.map_apply, id_eq, muted_addInputs values h]
  | drainOutputs =>
    have ho : m.outputs = a.outputs := (congrArg Machine.outputs h :)
    have hd : { m with outputs := ∅ }.muted = { a with outputs := ∅ }.muted :=
      (congrArg (fun n : Machine => { n with outputs := ∅ }) h :)
    simp only [respond, drainOutputs, ho, Option.map_some, Prod.map_apply, id_eq, hd]

theorem respondAll_muted (fuel : Nat) (requests : List Request) (h : m.muted = a.muted) :
    (m.respondAll fuel requests).map (Prod.map id muted) =
      (a.respondAll fuel requests).map (Prod.map id muted) := by
  induction requests generalizing m a with
  | nil => simp only [respondAll, Option.map_some, Prod.map_apply, id_eq, h]
  | cons request requests ih =>
    have hr := respond_muted fuel request h
    cases hm : m.respond fuel request with
    | none =>
      rw [hm, Option.map_none, eq_comm, Option.map_eq_none_iff] at hr
      rw [respondAll_of_respond_eq_none hm, respondAll_of_respond_eq_none hr]
    | some p =>
      rw [hm, Option.map_some, eq_comm, Option.map_eq_some_iff] at hr
      obtain ⟨q, ha, hq⟩ := hr
      obtain ⟨hfst, hsnd⟩ := Prod.mk.inj hq
      have hreply : q.1 = p.1 := hfst
      rw [respondAll_of_respond hm, respondAll_of_respond ha, Option.map_map, Option.map_map,
        hreply]
      refine map_congr_of_map (fun s t hst => ?_) (ih hsnd.symm)
      obtain ⟨hreplies, hleft⟩ := Prod.mk.inj hst
      exact Prod.ext (congrArg (p.1 :: ·) hreplies) hleft

end Machine

end Wordcode
