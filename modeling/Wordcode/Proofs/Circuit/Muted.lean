import Wordcode.Circuit.Search
import Wordcode.Proofs.Circuit.Chain
import Wordcode.Proofs.Circuit.Fuel
import Wordcode.Proofs.Machine.Muted

/-!
# Circuits do not look at their journals

Both ways to drive an amplifier look at no journal (`deaf_runAmplifier`,
`deaf_serve`). So circuits that are equal but for what was reported are swept
alike (`sweep_muted`), go through equal rounds (`round_muted`), and yield equal
results. In particular the result of an amplification is the same with every
journal that it starts from (`amplify_muted`).
-/

namespace Wordcode

open Machine

namespace Circuit

variable {fuel : Nat} {program phases values held : List Int} {signal : Int} {drive : Drive}
  {m a : Machine} {ms as : List Machine} {circuit other : Circuit}

/-! ## Amplifiers -/

/-- A drive that does the same whatever an amplifier has reported. -/
def Drive.Deaf (drive : Drive) : Prop :=
  ∀ m a : Machine, m.muted = a.muted →
    (drive m).map (Prod.map id Machine.muted) = (drive a).map (Prod.map id Machine.muted)

theorem deaf_runAmplifier (fuel : Nat) : Drive.Deaf (runAmplifier fuel) := by
  intro m a h
  rcases answers_of_map_eq (run_muted fuel h) with
    ⟨hm, ha⟩ | ⟨e | ⟨⟩, n, b, hm, ha, hnb⟩
  · simp only [runAmplifier, hm, ha]
  · simp only [runAmplifier, hm, ha, Option.map_some, Prod.map_apply, id_eq, hnb]
  · simp only [runAmplifier, hm, ha, Option.map_some, Prod.map_apply, id_eq, hnb]

theorem serviceRound_muted (h : m.muted = a.muted) (p : Bool) :
    (serviceRound (m, p)).map (Prod.map Machine.muted id) (Prod.map id Machine.muted) =
      (serviceRound (a, p)).map (Prod.map Machine.muted id) (Prod.map id Machine.muted) := by
  have hrun : m.IsRunning ↔ a.IsRunning := running_iff_of_muted h
  rcases serviceRound_cases m p with
    ⟨hm, hround⟩ | ⟨hm, ⟨s, n, hs, hw, hround⟩ | ⟨n, hs, hround⟩ | ⟨f, n, hs, hround⟩⟩
  · have ha : serviceRound (a, p) = .done (.ok p, a) := by
      simp only [serviceRound, if_neg (mt hrun.2 hm)]
    rw [hround, ha, Progress.map, Progress.map, Prod.map_apply, Prod.map_apply, h]
  · obtain ⟨b, hb, hnb⟩ := step_ok_of_muted h hs
    have ha : serviceRound (a, p) = .again (b, true) := by
      simp only [serviceRound, if_pos (hrun.1 hm), tryStep_of_ok hb hw]
    rw [hround, ha, Progress.map, Progress.map, Prod.map_apply, Prod.map_apply, hnb]
  · obtain ⟨b, hb, hnb⟩ := step_ok_of_muted h hs
    have ha : serviceRound (a, p) = .done (.ok p, b) := by
      simp only [serviceRound, if_pos (hrun.1 hm), tryStep_of_waiting hb]
    rw [hround, ha, Progress.map, Progress.map, Prod.map_apply, Prod.map_apply, hnb]
  · obtain ⟨b, hb, hnb⟩ := step_error_of_muted h hs
    have ha : serviceRound (a, p) = .done (.error (.failed f), b) := by
      simp only [serviceRound, if_pos (hrun.1 hm), tryStep_of_error hb]
    rw [hround, ha, Progress.map, Progress.map, Prod.map_apply, Prod.map_apply, hnb]

theorem deaf_serve (fuel : Nat) : Drive.Deaf (serve fuel) := by
  intro m a h
  refine loop_map_congr (f := Prod.map Machine.muted id) ?_ (congrArg (·, false) h)
  rintro ⟨n, p⟩ ⟨b, q⟩ hst
  obtain ⟨hnb, rfl⟩ := Prod.mk.inj hst
  exact serviceRound_muted hnb p

/-! ## Sweeps -/

theorem sweep_cons_of_ok_muted {n : Machine} {p : Bool}
    (hd : drive (m.addInputs values) = some (.ok p, n)) :
    (sweep drive (m :: ms) values).map (Prod.map id (List.map Machine.muted)) =
      ((sweep drive ms n.outputs.toList).map (Prod.map id (List.map Machine.muted))).map
        fun (r, ms) => (resultFrom p r, { n.muted with outputs := ∅ } :: ms) := by
  rw [sweep_cons_of_ok hd, Option.map_map, Option.map_map]
  rfl

theorem sweep_muted (hd : drive.Deaf) (h : ms.map Machine.muted = as.map Machine.muted) :
    (sweep drive ms values).map (Prod.map id (List.map Machine.muted)) =
      (sweep drive as values).map (Prod.map id (List.map Machine.muted)) := by
  induction ms generalizing as values with
  | nil =>
    obtain rfl := List.map_eq_nil_iff.1 h.symm
    rfl
  | cons m ms ih =>
    obtain ⟨a, as, rfl, ham, has⟩ := List.map_eq_cons_iff.1 h.symm
    rcases answers_of_map_eq (hd _ _ (muted_addInputs values ham.symm)) with
      ⟨hm, ha⟩ | ⟨e | p, n, b, hm, ha, hnb⟩
    · rw [sweep_cons_of_none hm, sweep_cons_of_none ha]
    · rw [sweep_cons_of_error hm, sweep_cons_of_error ha, Option.map_some, Option.map_some,
        Prod.map_apply, Prod.map_apply, List.map_cons, List.map_cons, hnb, has]
    · have ho : n.outputs = b.outputs := (congrArg Machine.outputs hnb :)
      rw [sweep_cons_of_ok_muted hm, sweep_cons_of_ok_muted ha, hnb, ho, ih has.symm]

/-! ## Circuits -/

/-- The circuit as if nothing had been reported. -/
def muted (circuit : Circuit) : Circuit :=
  { circuit with amplifiers := circuit.amplifiers.map Machine.muted, journal := .empty false }

theorem amplifiers_of_muted (h : circuit.muted = other.muted) :
    circuit.amplifiers.map Machine.muted = other.amplifiers.map Machine.muted :=
  (congrArg Circuit.amplifiers h :)

theorem signal_of_muted (h : circuit.muted = other.muted) : circuit.signal = other.signal :=
  (congrArg Circuit.signal h :)

theorem muted_collectJournals : circuit.collectJournals.muted = circuit.muted := by
  simp only [muted, collectJournals, List.map_map]
  rfl

theorem exists_status_of_muted (P : Status → Prop) (h : circuit.muted = other.muted) :
    (∃ m ∈ circuit.amplifiers, P m.status) ↔ ∃ m ∈ other.amplifiers, P m.status := by
  have hst : circuit.amplifiers.map Machine.status = other.amplifiers.map Machine.status := by
    have hmap := congrArg (List.map Machine.status) (amplifiers_of_muted h)
    rwa [List.map_map, List.map_map] at hmap
  have hmem (c : Circuit) :
      (∃ m ∈ c.amplifiers, P m.status) ↔ ∃ s ∈ c.amplifiers.map Machine.status, P s := by
    constructor
    · rintro ⟨m, hm, hp⟩
      exact ⟨m.status, List.mem_map_of_mem hm, hp⟩
    · rintro ⟨s, hs, hp⟩
      obtain ⟨m, hm, rfl⟩ := List.mem_map.1 hs
      exact ⟨m, hm, hp⟩
  rw [hmem, hmem, hst]

theorem pass_muted (values : List Int) (hd : drive.Deaf) (h : circuit.muted = other.muted) :
    (circuit.pass drive values).map (Prod.map id muted) =
      (other.pass drive values).map (Prod.map id muted) := by
  have hpass (c : Circuit) : (c.pass drive values).map (Prod.map id muted) =
      ((sweep drive c.amplifiers values).map (Prod.map id (List.map Machine.muted))).map
        fun (r, ms) => (r, { c.muted with amplifiers := ms }) := by
    cases hs : sweep drive c.amplifiers values with
    | none => simp only [pass, hs, Option.bind_eq_bind, Option.bind_none, Option.map_none]
    | some x =>
      simp only [pass, hs, Option.bind_eq_bind, Option.bind_some, Option.pure_def, Option.map_some,
        Prod.map_apply, id_eq, muted_collectJournals]
      rfl
  rw [hpass, hpass, sweep_muted hd (amplifiers_of_muted h), h]

theorem round_muted (fuel : Nat) (held : List Int) (h : circuit.muted = other.muted) :
    (circuit.round fuel held).map (Prod.map id muted) =
      (other.round fuel held).map (Prod.map id muted) := by
  have hstart : { circuit with rounds := circuit.rounds + 1 }.muted =
      { other with rounds := other.rounds + 1 }.muted :=
    congrArg (fun c : Circuit => { c with rounds := c.rounds + 1 }) h
  rcases answers_of_map_eq (pass_muted held (deaf_serve fuel) hstart) with
    ⟨hc, ho⟩ | ⟨e | swept, c, d, hc, ho, hcd⟩
  · simp only [round, hc, ho, Option.bind_eq_bind, Option.bind_none]
  · simp only [round, hc, ho, Option.bind_eq_bind, Option.bind_some, Option.pure_def,
      Option.map_some, Prod.map_apply, id_eq, hcd]
  · have hw := exists_status_of_muted (· = .waiting) hcd
    have hsignal : { c with signal := swept.outputs.getLast?.or c.signal }.muted =
        { d with signal := swept.outputs.getLast?.or d.signal }.muted :=
      congrArg (fun c : Circuit => { c with signal := swept.outputs.getLast?.or c.signal }) hcd
    simp only [round, hc, ho, Option.bind_eq_bind, Option.bind_some, Option.pure_def, hw]
    split
    · simp only [Option.map_some, Prod.map_apply, id_eq, hsignal]
    · simp only [Option.map_some, Prod.map_apply, id_eq, hsignal]

theorem close_muted (h : circuit.muted = other.muted) :
    Prod.map id muted circuit.close = Prod.map id muted other.close := by
  have hclose (c : Circuit) :
      Prod.map id muted c.close = (c.signal.elim (.error .silent) .ok, c.muted) := by
    unfold close
    cases hs : c.signal <;> simp only [muted, hs, Prod.map_apply, id_eq, Option.elim]
  rw [hclose, hclose, signal_of_muted h, h]

theorem feedbackRound_muted (h : circuit.muted = other.muted) :
    (feedbackRound fuel (circuit, held)).map (Prod.map muted id) (Option.map (Prod.map id muted)) =
      (feedbackRound fuel (other, held)).map (Prod.map muted id)
        (Option.map (Prod.map id muted)) := by
  have hrun : (∃ m ∈ circuit.amplifiers, m.IsRunning) ↔ ∃ m ∈ other.amplifiers, m.IsRunning :=
    exists_status_of_muted (· ≠ .stopped) h
  by_cases hr : ∃ m ∈ circuit.amplifiers, m.IsRunning
  · simp only [feedbackRound, if_pos hr, if_pos (hrun.1 hr)]
    rcases answers_of_map_eq (round_muted fuel held h) with
      ⟨hc, ho⟩ | ⟨e | held', c, d, hc, ho, hcd⟩
    · simp only [hc, ho]
    · simp only [hc, ho, Progress.map, Option.map_some, Prod.map_apply, id_eq, hcd]
    · simp only [hc, ho, Progress.map, Prod.map_apply, id_eq, hcd]
  · simp only [feedbackRound, if_neg hr, if_neg (mt hrun.2 hr), Progress.map, Option.map_some,
      close_muted h]

theorem inject_muted (h : circuit.muted = other.muted) :
    (circuit.inject signal).muted = (other.inject signal).muted := by
  have hinject (c : Circuit) : (c.inject signal).muted = c.muted.inject signal := by
    unfold inject
    cases hc : c.amplifiers with
    | nil => simp only [muted, hc, List.map_nil]
    | cons m ms =>
      simp only [muted, hc, List.map_cons]
      rfl
  rw [hinject, hinject, h]

/-! ## Results -/

theorem runFeedback_muted (h : circuit.muted = other.muted) :
    (circuit.runFeedback fuel signal).map (Prod.map id muted) =
      (other.runFeedback fuel signal).map (Prod.map id muted) := by
  have hloop : (loop (feedbackRound fuel) fuel (circuit.inject signal, [])).map
        (Option.map (Prod.map id muted)) =
      (loop (feedbackRound fuel) fuel (other.inject signal, [])).map
        (Option.map (Prod.map id muted)) := by
    refine loop_map_congr (f := Prod.map muted id) ?_ (congrArg (·, []) (inject_muted h))
    rintro ⟨c, held⟩ ⟨d, held'⟩ hst
    obtain ⟨hcd, rfl⟩ := Prod.mk.inj hst
    exact feedbackRound_muted hcd
  rw [runFeedback, runFeedback, ← Option.join_map_eq_map_join, ← Option.join_map_eq_map_join, hloop]

theorem runChain_muted (h : circuit.muted = other.muted) :
    (circuit.runChain fuel signal).map (Prod.map id muted) =
      (other.runChain fuel signal).map (Prod.map id muted) := by
  rcases answers_of_map_eq (pass_muted [signal] (deaf_runAmplifier fuel) h) with
    ⟨hc, ho⟩ | ⟨e | swept, c, d, hc, ho, hcd⟩
  · simp only [runChain, hc, ho, Option.bind_eq_bind, Option.bind_none]
  · simp only [runChain, hc, ho, Option.bind_eq_bind, Option.bind_some, Option.pure_def,
      Option.map_some, Prod.map_apply, id_eq, hcd]
  · simp only [runChain, hc, ho, Option.bind_eq_bind, Option.bind_some, Option.pure_def]
    split
    · simp only [Option.map_some, Prod.map_apply, id_eq, hcd]
    · simp only [Option.map_some, Prod.map_apply, id_eq, hcd]

theorem send_muted (fuel : Nat) (wiring : Wiring) (signal : Int)
    (h : circuit.muted = other.muted) :
    (circuit.send fuel wiring signal).map (Prod.map id muted) =
      (other.send fuel wiring signal).map (Prod.map id muted) := by
  cases wiring with
  | chain => exact runChain_muted h
  | feedback => exact runFeedback_muted h

/-- Circuits with the same program and phases are equal but for their journals. -/
theorem muted_of_build {journal journal' : Journal}
    (hb : build program phases journal = .ok circuit)
    (ho : build program phases journal' = .ok other) : circuit.muted = other.muted := by
  unfold build at hb ho
  split at hb
  · cases hb
  · next hne =>
    rw [if_neg hne] at ho
    cases hb
    cases ho
    simp only [muted, List.map_map]
    rfl

end Circuit

open Circuit

/-- The result of an amplification does not depend on what was reported before. -/
theorem amplify_muted (fuel : Nat) (wiring : Wiring) (program phases : List Int) (signal : Int)
    (journal journal' : Journal) :
    ((amplify fuel wiring program phases signal).run.run journal).map Prod.fst =
      ((amplify fuel wiring program phases signal).run.run journal').map Prod.fst := by
  by_cases hne : phases = []
  · subst hne
    rfl
  obtain ⟨circuit, hb, -⟩ : ∃ circuit, build program phases journal = .ok circuit ∧ _ :=
    exists_build hne journal
  obtain ⟨other, ho, -⟩ : ∃ other, build program phases journal' = .ok other ∧ _ :=
    exists_build hne journal'
  have hsend := send_muted fuel wiring signal (muted_of_build hb ho)
  have hfst (j : Journal) (c : Circuit) (hc : build program phases j = .ok c) :
      ((amplify fuel wiring program phases signal).run.run j).map Prod.fst =
        ((c.send fuel wiring signal).map (Prod.map id Circuit.muted)).map Prod.fst := by
    rw [run_amplify_of_build hc, Option.map_map, Option.map_map]
    rfl
  rw [hfst journal circuit hb, hfst journal' other ho, hsend]

end Wordcode
