import Mathlib.Data.List.Forall2
import Wordcode.Proofs.Calling.Padded
import Wordcode.Proofs.Circuit.Search
import Wordcode.Proofs.Circuit.Sweep

/-!
# Circuits of amplifiers with more memory

Amplifiers whose program has zeros behind it have more memory than those without.
Neither way to drive an amplifier tells the difference (`steady_runAmplifier`,
`steady_serve`). So neither does a sweep over such amplifiers (`sweep_extends`), a
round (`Extends.round`), or sending a signal (`Extends.send`), and zeros may stand
behind the program of an amplification or of a search for the best phase settings
(`runsAlike_amplify`, `runsAlike_bestSignal`).
-/

namespace Wordcode

open Machine (AnswersMirror RunExhausted)

/-- The host is exhausted: an amplifier exceeds its limit. -/
def CircuitError.Exhausted (e : CircuitError) : Prop := e = .interrupted (.failed .memoryLimit)

variable {fuel : Nat} {p q phases : List Int} {signal : Int} {m n : Machine}
  {ms ns : List Machine} {c d : Circuit}

namespace Circuit

variable {drive : Drive}

/-- The states of two loops that keep a value besides: the values are the same, and
the rest is related by `R`. -/
def StatesMirror {α σ τ : Type} (R : σ → τ → Prop) (s : σ × α) (t : τ × α) : Prop :=
  R s.1 t.1 ∧ s.2 = t.2

/-! ## Amplifiers -/

/-- A drive that does the same to an amplifier with more memory. -/
def Drive.Steady (drive : Drive) : Prop :=
  ∀ m n : Machine, m.Extends n →
    Mirrors RunExhausted (AnswersMirror Machine.Extends) (drive m) (drive n)

theorem steady_runAmplifier (fuel : Nat) : Drive.Steady (runAmplifier fuel) := by
  intro m n h
  refine (h.run fuel).map ?_ ?_
  · rintro ⟨r, m⟩ hr
    obtain rfl : r = .error (.failed .memoryLimit) := hr
    rfl
  · rintro ⟨r, m⟩ ⟨r', n⟩ ⟨hr, hmn⟩
    obtain rfl : r = r' := hr
    cases r with
    | ok => exact ⟨rfl, hmn⟩
    | error interrupt => exact ⟨rfl, hmn⟩

theorem serviceRound_extends (h : m.Extends n) (progressed : Bool) :
    (serviceRound (m, progressed)).Mirrors (StatesMirror Machine.Extends) RunExhausted
      (AnswersMirror Machine.Extends) (serviceRound (n, progressed)) := by
  by_cases hrun : m.IsRunning
  · have hstep := h.tryStep
    simp only [serviceRound, if_pos hrun, if_pos (h.running_iff.2 hrun)]
    generalize m.tryStep = x, n.tryStep = y at hstep
    obtain ⟨o, m'⟩ := x
    obtain ⟨o', n'⟩ := y
    cases hstep with
    | exempt ho =>
      obtain rfl : o = .interrupted (.failed .memoryLimit) := ho
      exact .exempt rfl
    | some hx =>
      obtain ⟨ho, hmn⟩ := hx
      obtain rfl : o = o' := ho
      rcases o with s | a | f
      · exact .again ⟨hmn, rfl⟩
      · exact .done ⟨rfl, hmn⟩
      · exact .done ⟨rfl, hmn⟩
  · simp only [serviceRound, if_neg hrun, if_neg (mt h.running_iff.1 hrun)]
    exact .done ⟨rfl, h⟩

theorem steady_serve (fuel : Nat) : Drive.Steady (serve fuel) := by
  intro m n h
  refine loop_mirrors (S := StatesMirror Machine.Extends) ?_ ⟨h, rfl⟩
  rintro ⟨m, progressed⟩ ⟨n, _⟩ ⟨hmn, rfl⟩
  exact serviceRound_extends hmn progressed

/-! ## Sweeps -/

/-- Each amplifier of the second row has the cells of one of the first, and behind
them only zeros. -/
abbrev RowExtends : List Machine → List Machine → Prop := List.Forall₂ Machine.Extends

theorem runExhausted_resultFrom {progressed : Bool} {r : Except Interrupt Swept}
    (h : RunExhausted (r, ms)) (ns : List Machine) :
    RunExhausted (resultFrom progressed r, ns) := by
  obtain rfl : r = .error (.failed .memoryLimit) := h
  rfl

theorem sweep_extends (hd : drive.Steady) (h : RowExtends ms ns) (values : List Int) :
    Mirrors RunExhausted (AnswersMirror RowExtends) (sweep drive ms values)
      (sweep drive ns values) := by
  induction h generalizing values with
  | nil => exact .some ⟨rfl, .nil⟩
  | @cons m n ms ns hmn hrest ih =>
    have hdrive := hd _ _ (hmn.addInputs values)
    generalize hx : drive (m.addInputs values) = x, hy : drive (n.addInputs values) = y at hdrive
    cases hdrive with
    | @exempt p _ hp =>
      obtain ⟨r, m'⟩ := p
      obtain rfl : r = .error (.failed .memoryLimit) := hp
      rw [sweep_cons_of_error hx]
      exact .exempt rfl
    | none =>
      rw [sweep_cons_of_none hx, sweep_cons_of_none hy]
      exact .none
    | @some p q hpq =>
      obtain ⟨r, m'⟩ := p
      obtain ⟨r', n'⟩ := q
      obtain ⟨hr, hmn'⟩ := hpq
      obtain rfl : r = r' := hr
      cases r with
      | error interrupt =>
        rw [sweep_cons_of_error hx, sweep_cons_of_error hy]
        exact .some ⟨rfl, .cons hmn' hrest⟩
      | ok progressed =>
        -- Both amplifiers hand on the same values, so the rest is swept with these.
        rw [sweep_cons_of_ok hx, sweep_cons_of_ok hy, hmn'.outputs]
        refine (ih m'.outputs.toList).map (fun p hp => runExhausted_resultFrom hp _) ?_
        rintro ⟨r, ms'⟩ ⟨r', ns'⟩ ⟨hr, hrest'⟩
        exact ⟨congrArg (resultFrom progressed) hr, .cons (hmn'.setOutputs ∅) hrest'⟩

/-! ## Circuits -/

/-- The circuit `d` is `c`, but for more memory of the amplifiers. -/
def Extends (c d : Circuit) : Prop :=
  ∃ amplifiers, RowExtends c.amplifiers amplifiers ∧ d = { c with amplifiers }

/-- A signal is sent, and the host is exhausted. -/
def SendExhausted {α : Type} (p : Except CircuitError α × Circuit) : Prop :=
  ∃ e, p.1 = .error e ∧ e.Exhausted

/-- A feedback loop has ended, and the host is exhausted. -/
def LoopExhausted {α : Type} (x : Option (Except CircuitError α × Circuit)) : Prop :=
  ∃ p, x = some p ∧ SendExhausted p

theorem RowExtends.addJournals (h : RowExtends ms ns) (journal : Journal) :
    ns.foldl (fun journal m => journal.append m.journal) journal =
      ms.foldl (fun journal m => journal.append m.journal) journal := by
  induction h generalizing journal with
  | nil => rfl
  | cons hmn _ ih =>
    obtain ⟨memory, -, rfl⟩ := hmn
    exact ih _

theorem RowExtends.takeJournals (h : RowExtends ms ns) :
    RowExtends (ms.map (·.takeJournal.2)) (ns.map (·.takeJournal.2)) := by
  induction h with
  | nil => exact .nil
  | cons hmn _ ih =>
    obtain ⟨memory, hm, rfl⟩ := hmn
    exact .cons ⟨memory, hm, rfl⟩ ih

theorem RowExtends.exists_status_iff (h : RowExtends ms ns) (P : Status → Prop) :
    (∃ n ∈ ns, P n.status) ↔ ∃ m ∈ ms, P m.status := by
  induction h with
  | nil => exact Iff.rfl
  | cons hmn _ ih => simp only [List.exists_mem_cons_iff, ih, hmn.status]

theorem Extends.collectJournals (h : c.Extends d) :
    c.collectJournals.Extends d.collectJournals := by
  obtain ⟨amplifiers, hrow, rfl⟩ := h
  refine ⟨_, hrow.takeJournals, ?_⟩
  simp only [Circuit.collectJournals, hrow.addJournals]

theorem pass_eq (drive : Drive) (circuit : Circuit) (values : List Int) :
    circuit.pass drive values = (sweep drive circuit.amplifiers values).map fun p =>
      (p.1, { circuit with amplifiers := p.2 }.collectJournals) := by
  unfold pass
  rw [Option.bind_eq_bind]
  exact Option.map_eq_bind.symm

theorem Extends.pass (h : c.Extends d) (hd : drive.Steady) (values : List Int) :
    Mirrors RunExhausted (AnswersMirror Extends) (c.pass drive values)
      (d.pass drive values) := by
  obtain ⟨amplifiers, hrow, rfl⟩ := h
  rw [pass_eq, pass_eq]
  refine (sweep_extends hd hrow values).map (fun _ hp => hp) ?_
  rintro ⟨r, ms⟩ ⟨r', ns⟩ ⟨hr, hrow'⟩
  exact ⟨hr, Extends.collectJournals ⟨ns, hrow', rfl⟩⟩

/-- What becomes of a sweep mirrors what becomes of the other, if an interrupt ends
both. -/
theorem Extends.pass_bind {α : Type}
    {f : Except Interrupt Swept × Circuit → Option (Except CircuitError α × Circuit)}
    (h : c.Extends d) (hd : drive.Steady) (values : List Int)
    (herror : ∀ e c, f (.error e, c) = some (.error (.interrupted e), c))
    (hok : ∀ swept c d, c.Extends d →
      Mirrors SendExhausted (AnswersMirror Extends) (f (.ok swept, c)) (f (.ok swept, d))) :
    Mirrors SendExhausted (AnswersMirror Extends) ((c.pass drive values).bind f)
      ((d.pass drive values).bind f) := by
  refine (h.pass hd values).bind ?_ ?_
  · rintro ⟨r, c⟩ hr
    obtain rfl : r = .error (.failed .memoryLimit) := hr
    exact ⟨_, herror _ _, _, rfl, rfl⟩
  · rintro ⟨r, c⟩ ⟨r', d⟩ ⟨hr, hcd⟩
    obtain rfl : r = r' := hr
    cases r with
    | error interrupt =>
      rw [herror, herror]
      exact .some ⟨rfl, hcd⟩
    | ok swept => exact hok swept c d hcd

/-! ## Rounds -/

theorem Extends.round (h : c.Extends d) (fuel : Nat) (held : List Int) :
    Mirrors SendExhausted (AnswersMirror Extends) (c.round fuel held) (d.round fuel held) := by
  have hstart : Extends { c with rounds := c.rounds + 1 } { d with rounds := d.rounds + 1 } := by
    obtain ⟨amplifiers, hrow, rfl⟩ := h
    exact ⟨amplifiers, hrow, rfl⟩
  refine hstart.pass_bind (steady_serve fuel) held (fun _ _ => rfl) ?_
  rintro swept c d ⟨amplifiers, hrow, rfl⟩
  simp only [hrow.exists_status_iff (· = .waiting)]
  split
  · exact .some ⟨rfl, amplifiers, hrow, rfl⟩
  · exact .some ⟨rfl, amplifiers, hrow, rfl⟩

theorem Extends.close (h : c.Extends d) : AnswersMirror Extends c.close d.close := by
  obtain ⟨amplifiers, hrow, rfl⟩ := h
  obtain ⟨ms, rounds, signal, journal⟩ := c
  cases signal with
  | none => exact ⟨rfl, amplifiers, hrow, rfl⟩
  | some signal => exact ⟨rfl, amplifiers, hrow, rfl⟩

theorem Extends.feedbackRound (h : c.Extends d) (fuel : Nat) (held : List Int) :
    (Circuit.feedbackRound fuel (c, held)).Mirrors (StatesMirror Extends) LoopExhausted
      (Mirrors SendExhausted (AnswersMirror Extends)) (Circuit.feedbackRound fuel (d, held)) := by
  have hrun : (∃ n ∈ d.amplifiers, n.IsRunning) ↔ ∃ m ∈ c.amplifiers, m.IsRunning := by
    obtain ⟨amplifiers, hrow, rfl⟩ := h
    exact hrow.exists_status_iff (· ≠ .stopped)
  have hround := h.round fuel held
  unfold Circuit.feedbackRound
  simp only [hrun]
  split
  · generalize c.round fuel held = x, d.round fuel held = y at hround
    cases hround with
    | @exempt p _ hp =>
      obtain ⟨r, c⟩ := p
      obtain ⟨e, rfl, he⟩ := hp
      exact .exempt ⟨_, rfl, e, rfl, he⟩
    | none => exact .done .none
    | @some p q hpq =>
      obtain ⟨r, c⟩ := p
      obtain ⟨r', d⟩ := q
      obtain ⟨hr, hcd⟩ := hpq
      obtain rfl : r = r' := hr
      cases r with
      | error e => exact .done (.some ⟨rfl, hcd⟩)
      | ok held => exact .again ⟨hcd, rfl⟩
  · exact .done (.some h.close)

theorem Extends.inject (h : c.Extends d) (value : Int) :
    (c.inject value).Extends (d.inject value) := by
  obtain ⟨amplifiers, hrow, rfl⟩ := h
  obtain ⟨ms, rounds, signal, journal⟩ := c
  cases hrow with
  | nil => exact ⟨[], .nil, rfl⟩
  | cons hmn hrest => exact ⟨_, .cons (hmn.addInputs _) hrest, rfl⟩

/-! ## Results -/

theorem Extends.runFeedback (h : c.Extends d) (fuel : Nat) (signal : Int) :
    Mirrors SendExhausted (AnswersMirror Extends) (c.runFeedback fuel signal)
      (d.runFeedback fuel signal) := by
  have hloop : Mirrors LoopExhausted (Mirrors SendExhausted (AnswersMirror Extends))
      (loop (Circuit.feedbackRound fuel) fuel (c.inject signal, []))
      (loop (Circuit.feedbackRound fuel) fuel (d.inject signal, [])) := by
    refine loop_mirrors (S := StatesMirror Extends) ?_ ⟨h.inject signal, rfl⟩
    rintro ⟨c, held⟩ ⟨d, _⟩ ⟨hcd, rfl⟩
    exact hcd.feedbackRound fuel held
  exact hloop.bind (fun _ hx => hx) fun _ _ hxy => hxy

theorem Extends.runChain (h : c.Extends d) (fuel : Nat) (signal : Int) :
    Mirrors SendExhausted (AnswersMirror Extends) (c.runChain fuel signal)
      (d.runChain fuel signal) := by
  refine h.pass_bind (steady_runAmplifier fuel) [signal] (fun _ _ => rfl) fun swept c d hcd => ?_
  dsimp only
  split
  · exact .some ⟨rfl, hcd⟩
  · exact .some ⟨rfl, hcd⟩

theorem Extends.send (h : c.Extends d) (fuel : Nat) (wiring : Wiring) (signal : Int) :
    Mirrors SendExhausted (AnswersMirror Extends) (c.send fuel wiring signal)
      (d.send fuel wiring signal) := by
  cases wiring with
  | chain => exact h.runChain fuel signal
  | feedback => exact h.runFeedback fuel signal

/-- Fresh amplifiers for the second program have more memory. -/
theorem exists_builds (h : Program.Padded p q) (hne : phases ≠ []) (journal : Journal) :
    ∃ c d, build p phases journal = .ok c ∧ build q phases journal = .ok d ∧ c.Extends d := by
  cases phases with
  | nil => exact absurd rfl hne
  | cons phase phases =>
    refine ⟨_, _, rfl, rfl, _, ?_, rfl⟩
    exact List.forall₂_map_left_iff.2 <| List.forall₂_map_right_iff.2 <|
      List.forall₂_same.2 fun phase _ => extends_load h [phase] journal.verbose

end Circuit

open Circuit

theorem runsAlike_amplify (h : Program.Padded p q) (fuel : Nat) (wiring : Wiring)
    (phases : List Int) (signal : Int) :
    RunsAlike CircuitError.Exhausted Eq (amplify fuel wiring p phases signal)
      (amplify fuel wiring q phases signal) := fun journal => by
  by_cases hne : phases = []
  · subst hne
    exact .some .error
  obtain ⟨c, d, hc, hd, hcd⟩ := exists_builds h hne journal
  rw [run_amplify_of_build hc, run_amplify_of_build hd]
  refine (hcd.send fuel wiring signal).map (fun p hp => hp) ?_
  rintro ⟨r, c⟩ ⟨r', d⟩ ⟨hr, amplifiers, -, rfl⟩
  obtain rfl : r = r' := hr
  exact .refl _

theorem runsAlike_visit (h : Program.Padded p q) (fuel : Nat) (wiring : Wiring)
    (best : Option (Int × List Int)) (ordering : List Int) :
    RunsAlike CircuitError.Exhausted Eq (visit fuel wiring p best ordering)
      (visit fuel wiring q best ordering) := by
  refine (runsAlike_amplify h fuel wiring ordering 0).bind ?_
  rintro signal _ rfl
  exact .refl _

theorem runsAlike_bestSignal (h : Program.Padded p q) (fuel : Nat) (wiring : Wiring)
    (phases : List Int) :
    RunsAlike CircuitError.Exhausted Eq (bestSignal fuel wiring p phases)
      (bestSignal fuel wiring q phases) := by
  rw [bestSignal_eq, bestSignal_eq]
  refine (RunsAlike.foldlM (runsAlike_visit h fuel wiring) (orderings phases) none).bind ?_
  rintro best _ rfl
  exact .refl _

end Wordcode
