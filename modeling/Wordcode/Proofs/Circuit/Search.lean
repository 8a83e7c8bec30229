import Mathlib.Data.List.Induction
import Wordcode.Proofs.Circuit.Deadlock
import Wordcode.Proofs.Circuit.Muted
import Wordcode.Proofs.Circuit.Orderings

/-!
# The search finds the greatest signal

With enough fuel, an amplification that ends comes to the same result whatever
was reported before (`comesTo_amplify`). The search sends a signal through the
orderings of the phases one after another (`Enumerates`). As long as each comes
to a signal, it holds the greatest so far, with the first ordering that has it
(`exists_best`). What is left then is `FirstBest`, and the first ordering that
fails ends the search with its error (`search_finds_first_best`).
-/

namespace Wordcode

variable {α β : Type} {fuel : Nat} {program phases : List Int} {signal : Int} {wiring : Wiring}
  {x : Nat → CircuitM α} {f : Nat → α → CircuitM β} {a : α} {e : CircuitError}

/-! ## Computations with fuel -/

/-- With enough fuel, and whatever was reported before, a computation has a result. -/
def ComesTo (x : Nat → CircuitM α) (result : Except CircuitError α) : Prop :=
  ∃ bound, ∀ fuel, bound ≤ fuel → ∀ journal : Journal, ∃ journal',
    (x fuel).run.run journal = some (result, journal')

theorem ComesTo.bind {result : Except CircuitError β} (hx : ComesTo x (.ok a))
    (hf : ComesTo (fun n => f n a) result) : ComesTo (fun n => x n >>= f n) result := by
  obtain ⟨b, hb⟩ := hx
  obtain ⟨c, hc⟩ := hf
  refine ⟨max b c, fun n hn journal => ?_⟩
  obtain ⟨mid, hmid⟩ := hb n (by omega) journal
  obtain ⟨journal', hlast⟩ := hc n (by omega) mid
  refine ⟨journal', ?_⟩
  rw [ExceptT.run_bind, StateT.run_bind, hmid]
  exact hlast

theorem ComesTo.bind_error (hx : ComesTo x (.error e)) :
    ComesTo (fun n => x n >>= f n) (.error e) := by
  obtain ⟨b, hb⟩ := hx
  refine ⟨b, fun n hn journal => ?_⟩
  obtain ⟨journal', h⟩ := hb n hn journal
  refine ⟨journal', ?_⟩
  rw [ExceptT.run_bind, StateT.run_bind, h]
  rfl

theorem comesTo_pure (a : α) : ComesTo (fun _ => pure a) (.ok a) :=
  ⟨0, fun _ _ journal => ⟨journal, rfl⟩⟩

/-- A computation has at most one result. -/
theorem ComesTo.unique {r r' : Except CircuitError α} (h : ComesTo x r) (h' : ComesTo x r') :
    r = r' := by
  obtain ⟨b, hb⟩ := h
  obtain ⟨c, hc⟩ := h'
  obtain ⟨j, hj⟩ := hb (max b c) (by omega) (.empty false)
  obtain ⟨j', hj'⟩ := hc (max b c) (by omega) (.empty false)
  cases hj.symm.trans hj'
  rfl

/-! ## Amplifications -/

namespace Circuit

variable {circuit : Circuit} {r : Except CircuitError Int × Circuit}

theorem runChain_mono {n : Nat} (hn : fuel ≤ n) (h : circuit.runChain fuel signal = some r) :
    circuit.runChain n signal = some r := by
  obtain ⟨x, hx, hr⟩ := Option.bind_eq_some_iff.1 h
  obtain ⟨y, hy, hxy⟩ := Option.bind_eq_some_iff.1 hx
  have hrun : ∀ m p, runAmplifier fuel m = some p → runAmplifier n m = some p := by
    intro m p hm
    obtain ⟨q, hq, hp⟩ := Option.map_eq_some_iff.1 hm
    have hn : m.run n = some q := loop_mono hq hn
    exact Option.map_eq_some_iff.2 ⟨q, hn, hp⟩
  have hsweep := sweep_mono hrun hy
  exact Option.bind_eq_some_iff.2 ⟨x, Option.bind_eq_some_iff.2 ⟨y, hsweep, hxy⟩, hr⟩

theorem exists_send (h : circuit.send fuel wiring signal = some r) :
    ∃ bound, ∀ n, bound ≤ n → circuit.send n wiring signal = some r := by
  cases wiring with
  | chain => exact ⟨fuel, fun n hn => runChain_mono hn h⟩
  | feedback =>
    obtain ⟨k, t, -, hk, ht, -⟩ := exists_stateAfter_of_loop (Option.join_eq_some_iff.1 h)
    exact exists_runFeedback hk ht

end Circuit

/-- An amplification that ends once ends with the same result always. -/
theorem comesTo_amplify {journal journal' : Journal} {result : Except CircuitError Int}
    (h : (amplify fuel wiring program phases signal).run.run journal = some (result, journal')) :
    ComesTo (fun n => amplify n wiring program phases signal) result := by
  have hbound : ∃ bound, ∀ n, bound ≤ n →
      (amplify n wiring program phases signal).run.run journal = some (result, journal') := by
    cases hb : Circuit.build program phases journal with
    | error e =>
      refine ⟨0, fun n _ => ?_⟩
      simp only [amplify, ExceptT.run_mk, StateT.run, hb] at h ⊢
      exact h
    | ok circuit =>
      simp only [amplify, ExceptT.run_mk, StateT.run, hb] at h ⊢
      obtain ⟨r, hr, hj⟩ := Option.map_eq_some_iff.1 h
      obtain ⟨bound, hbound⟩ := Circuit.exists_send hr
      exact ⟨bound, fun n hn => Option.map_eq_some_iff.2 ⟨r, hbound n hn, hj⟩⟩
  obtain ⟨bound, hbound⟩ := hbound
  refine ⟨bound, fun n hn other => ?_⟩
  have hfst := amplify_muted n wiring program phases signal other journal
  rw [hbound n hn, Option.map_some] at hfst
  obtain ⟨⟨r, j⟩, hr, rfl⟩ := Option.map_eq_some_iff.1 hfst
  exact ⟨j, hr⟩

/-- The signal that a circuit with the given phases sends if it is sent zero. -/
def Gives (wiring : Wiring) (program phases : List Int) (signal : Int) : Prop :=
  ComesTo (fun n => amplify n wiring program phases 0) (.ok signal)

theorem Gives.unique {v w : Int} (hv : Gives wiring program phases v)
    (hw : Gives wiring program phases w) : v = w :=
  Except.ok.inj (ComesTo.unique hv hw)

theorem gives_of_run (fuel : Nat)
    (h : ((amplify fuel wiring program phases 0).run.run (.empty false)).map (·.1.toOption) =
      some (some signal)) : Gives wiring program phases signal := by
  obtain ⟨⟨_ | v, journal⟩, hr, hv⟩ := Option.map_eq_some_iff.1 h
  · cases hv
  · cases hv
    exact comesTo_amplify hr

/-! ## The first of the best -/

/-- No member of a list has a greater signal than the given one, and no member
before it has an equal one. -/
structure FirstBest (has : α → Int → Prop) (l : List α) (best : Int × α) : Prop where
  split : ∃ before after, l = before ++ best.2 :: after ∧ ∀ b ∈ before, ∃ v < best.1, has b v
  attained : has best.2 best.1
  greatest : ∀ b ∈ l, ∃ v ≤ best.1, has b v

namespace FirstBest

variable {has : α → Int → Prop} {l : List α} {best : Int × α} {v : Int}

theorem singleton (h : has a v) : FirstBest has [a] (v, a) where
  split := ⟨[], [], rfl, nofun⟩
  attained := h
  greatest b hb := by
    cases List.mem_singleton.1 hb
    exact ⟨v, Int.le_refl v, h⟩

theorem append_of_lt (h : FirstBest has l best) (ha : has a v) (hv : best.1 < v) :
    FirstBest has (l ++ [a]) (v, a) where
  split := by
    refine ⟨l, [], rfl, fun b hb => ?_⟩
    obtain ⟨w, hw, hbw⟩ := h.greatest b hb
    exact ⟨w, Int.lt_of_le_of_lt hw hv, hbw⟩
  attained := ha
  greatest b hb := by
    rcases List.mem_append.1 hb with hb | hb
    · obtain ⟨w, hw, hbw⟩ := h.greatest b hb
      exact ⟨w, Int.le_of_lt (Int.lt_of_le_of_lt hw hv), hbw⟩
    · cases List.mem_singleton.1 hb
      exact ⟨v, Int.le_refl v, ha⟩

theorem append_of_le (h : FirstBest has l best) (ha : has a v) (hv : v ≤ best.1) :
    FirstBest has (l ++ [a]) best where
  split := by
    obtain ⟨before, after, hl, hbefore⟩ := h.split
    exact ⟨before, after ++ [a], by rw [hl, List.append_assoc, List.cons_append], hbefore⟩
  attained := h.attained
  greatest b hb := by
    rcases List.mem_append.1 hb with hb | hb
    · exact h.greatest b hb
    · cases List.mem_singleton.1 hb
      exact ⟨v, hv, ha⟩

theorem mem (h : FirstBest has l best) : best.2 ∈ l := by
  obtain ⟨before, after, hl, -⟩ := h.split
  rw [hl]
  exact List.mem_append_right before List.mem_cons_self

/-- The greatest signal depends on the members of a list only. -/
theorem signal_le {l' : List α} {best' : Int × α} (h : FirstBest has l best)
    (h' : FirstBest has l' best') (hsub : l' ⊆ l)
    (hunique : ∀ b v w, has b v → has b w → v = w) : best'.1 ≤ best.1 := by
  obtain ⟨v, hv, hbv⟩ := h.greatest _ (hsub h'.mem)
  rw [hunique _ _ _ h'.attained hbv]
  exact hv

end FirstBest

/-! ## The search -/

/-- The search looks at one more ordering. -/
def visit (fuel : Nat) (wiring : Wiring) (program : List Int) (best : Option (Int × List Int))
    (ordering : List Int) : CircuitM (Option (Int × List Int)) := do
  let signal ← amplify fuel wiring program ordering 0
  return some (better best (signal, ordering))

/-- What the search yields at its end. -/
def found : Option (Int × List Int) → CircuitM (Int × List Int)
  | none => throw .noPhases
  | some best => pure best

theorem bestSignal_eq : bestSignal fuel wiring program phases =
    (orderings phases).foldlM (visit fuel wiring program) none >>= found := by
  rw [← foldOrderings_eq_foldlM]
  rfl

theorem comesTo_visit {best : Option (Int × List Int)} (h : Gives wiring program phases signal) :
    ComesTo (fun n => visit n wiring program best phases)
      (.ok (some (better best (signal, phases)))) :=
  h.bind (comesTo_pure _)

/-- Behind orderings that all give a signal the search holds the first of the best. -/
theorem exists_best {l : List (List Int)} (h : ∀ ph ∈ l, ∃ v, Gives wiring program ph v) :
    ∃ best, ComesTo (fun n => l.foldlM (visit n wiring program) none) (.ok best) ∧
      (l = [] ∧ best = none ∨ ∃ b, best = some b ∧ FirstBest (Gives wiring program) l b) := by
  induction l using List.reverseRecOn with
  | nil => exact ⟨none, comesTo_pure none, .inl ⟨rfl, rfl⟩⟩
  | append_singleton l ph ih =>
    obtain ⟨best, hbest, hl⟩ := ih fun q hq => h q (List.mem_append_left _ hq)
    obtain ⟨v, hv⟩ := h ph (List.mem_append_right _ (List.mem_singleton.2 rfl))
    refine ⟨some (better best (v, ph)), ?_, .inr ⟨_, rfl, ?_⟩⟩
    · have hfold :=
        hbest.bind (f := fun n b => visit n wiring program b ph) (comesTo_visit hv)
      simpa only [List.foldlM_append, List.foldlM_cons, List.foldlM_nil, bind_pure] using hfold
    · rcases hl with ⟨rfl, rfl⟩ | ⟨b, rfl, hb⟩
      · exact .singleton hv
      · rw [better]
        split
        · next hlt => exact hb.append_of_lt hv hlt
        · next hle => exact hb.append_of_le hv (Int.not_lt.1 hle)

theorem comesTo_bestSignal (h : ∀ ph ∈ orderings phases, ∃ v, Gives wiring program ph v) :
    ∃ best, ComesTo (fun n => bestSignal n wiring program phases) (.ok best) ∧
      FirstBest (Gives wiring program) (orderings phases) best := by
  obtain ⟨best, hbest, ⟨hnil, -⟩ | ⟨b, rfl, hb⟩⟩ := exists_best h
  · have hmem : phases ∈ orderings phases := mem_orderings_iff.2 (List.Perm.refl phases)
    rw [hnil] at hmem
    cases hmem
  · refine ⟨b, ?_, hb⟩
    simpa only [bestSignal_eq] using hbest.bind (comesTo_pure b)

theorem comesTo_bestSignal_error {before after : List (List Int)} {ph : List Int}
    (hl : orderings phases = before ++ ph :: after)
    (h : ∀ q ∈ before, ∃ v, Gives wiring program q v)
    (he : ComesTo (fun n => amplify n wiring program ph 0) (.error e)) :
    ComesTo (fun n => bestSignal n wiring program phases) (.error e) := by
  obtain ⟨best, hbest, -⟩ := exists_best h
  have hvisit : ComesTo (fun n => visit n wiring program best ph) (.error e) := he.bind_error
  have hfold : ComesTo (fun n => (before ++ ph :: after).foldlM (visit n wiring program) none)
      (.error e) := by
    simpa only [List.foldlM_append, List.foldlM_cons] using hbest.bind hvisit.bind_error
  simpa only [bestSignal_eq, hl] using hfold.bind_error

/-- The search visits the orderings of the phases, which are those of the
positions, each once, and in lexicographic order. If they all give a signal, it
finds the greatest, with the first ordering that gives it, and so it finds the
same signal for the phases in any other order. The first ordering that fails ends
it with its error. There has to be a phase. -/
theorem search_finds_first_best (wiring : Wiring) (program phases : List Int) :
    ((∀ fuel, bestSignal fuel wiring program phases =
        (orderings phases).foldlM (visit fuel wiring program) none >>= found) ∧
      orderings phases =
        (orderings (List.range phases.length)).map (List.map fun i => phases.getD i 0) ∧
      Enumerates phases.length (orderings (List.range phases.length))) ∧
    ((∀ ph ∈ orderings phases, ∃ v, Gives wiring program ph v) → ∃ s ph,
      FirstBest (Gives wiring program) (orderings phases) (s, ph) ∧
      ComesTo (fun n => bestSignal n wiring program phases) (.ok (s, ph)) ∧
      ∀ others, others.Perm phases →
        ∃ ph', ComesTo (fun n => bestSignal n wiring program others) (.ok (s, ph'))) ∧
    (∀ before ph after e, orderings phases = before ++ ph :: after →
      (∀ q ∈ before, ∃ v, Gives wiring program q v) →
      ComesTo (fun n => amplify n wiring program ph 0) (.error e) →
      ComesTo (fun n => bestSignal n wiring program phases) (.error e)) ∧
    ComesTo (fun n => bestSignal n wiring program []) (.error .noPhases) ∧
    CircuitError.noPhases.message = "An amplifier network needs at least one phase" := by
  refine ⟨⟨fun _ => bestSignal_eq, orderings_eq_map_positions phases, enumerates_orderings _⟩,
    fun h => ?_, fun _ _ _ _ => comesTo_bestSignal_error, ?_, rfl⟩
  · obtain ⟨⟨s, ph⟩, hs, hfirst⟩ := comesTo_bestSignal h
    refine ⟨s, ph, hfirst, hs, fun others hperm => ?_⟩
    have hmem : ∀ q, q ∈ orderings others ↔ q ∈ orderings phases := fun q => by
      rw [mem_orderings_iff, mem_orderings_iff, hperm.congr_right]
    obtain ⟨⟨s', ph'⟩, hs', hfirst'⟩ := comesTo_bestSignal fun q hq => h q ((hmem q).1 hq)
    have hle : s' ≤ s :=
      hfirst.signal_le hfirst' (fun q hq => (hmem q).1 hq) fun _ _ _ => Gives.unique
    have hge : s ≤ s' :=
      hfirst'.signal_le hfirst (fun q hq => (hmem q).2 hq) fun _ _ _ => Gives.unique
    exact ⟨ph', Int.le_antisymm hle hge ▸ hs'⟩
  · have hempty : ComesTo (fun n => amplify n wiring program [] 0) (.error .noPhases) :=
      ⟨0, fun _ _ journal => ⟨journal, rfl⟩⟩
    have hone : orderings ([] : List Int) = [] ++ [] :: [] := rfl
    exact comesTo_bestSignal_error hone nofun hempty

/-- Three phases of which two are equal, with a program that doubles the signal and
adds the phase, and two phases with a program that executes the sum of both and so
fails in the second ordering only. -/
theorem search_finds_first_best_tied :
    (∃ ph, FirstBest (Gives .chain [3, 15, 3, 16, 1002, 16, 2, 16, 1, 15, 16, 16, 4, 16, 99])
        (orderings [0, 1, 1]) (6, ph) ∧
      ComesTo (fun n => bestSignal n .chain
        [3, 15, 3, 16, 1002, 16, 2, 16, 1, 15, 16, 16, 4, 16, 99] [0, 1, 1]) (.ok (6, ph))) ∧
      ComesTo (fun n => bestSignal n .feedback
        [3, 12, 3, 13, 1, 12, 13, 10, 4, 10, 0, 0, 0, 0] [99, 0])
        (.error (.interrupted (.failed (.fault (.badInstruction 0 10 .unknownOperation))))) := by
  constructor
  · have h₁ : Gives .chain [3, 15, 3, 16, 1002, 16, 2, 16, 1, 15, 16, 16, 4, 16, 99] [0, 1, 1] 3 :=
      gives_of_run 20 (by decide +kernel)
    have h₂ : Gives .chain [3, 15, 3, 16, 1002, 16, 2, 16, 1, 15, 16, 16, 4, 16, 99] [1, 0, 1] 5 :=
      gives_of_run 20 (by decide +kernel)
    have h₃ : Gives .chain [3, 15, 3, 16, 1002, 16, 2, 16, 1, 15, 16, 16, 4, 16, 99] [1, 1, 0] 6 :=
      gives_of_run 20 (by decide +kernel)
    have hcases : ∀ ph ∈ orderings [(0 : Int), 1, 1],
        ph = [0, 1, 1] ∨ ph = [1, 0, 1] ∨ ph = [1, 1, 0] := by decide
    obtain ⟨-, hbest, -⟩ := search_finds_first_best .chain
      [3, 15, 3, 16, 1002, 16, 2, 16, 1, 15, 16, 16, 4, 16, 99] [0, 1, 1]
    obtain ⟨s, ph, hfirst, hs, -⟩ := hbest fun ph hph => by
      rcases hcases ph hph with rfl | rfl | rfl
      · exact ⟨3, h₁⟩
      · exact ⟨5, h₂⟩
      · exact ⟨6, h₃⟩
    obtain ⟨v, hv, h₃'⟩ := hfirst.greatest [1, 1, 0] (by decide)
    have hle : 6 ≤ s := h₃.unique h₃' ▸ hv
    obtain rfl : s = 6 := by
      rcases hcases ph hfirst.mem with rfl | rfl | rfl
      · have hv₁ := hfirst.attained.unique h₁
        omega
      · have hv₂ := hfirst.attained.unique h₂
        omega
      · exact hfirst.attained.unique h₃
    exact ⟨ph, hfirst, hs⟩
  · obtain ⟨-, -, hfail, -⟩ := search_finds_first_best .feedback
      [3, 12, 3, 13, 1, 12, 13, 10, 4, 10, 0, 0, 0, 0] [99, 0]
    have hfirst : Gives .feedback [3, 12, 3, 13, 1, 12, 13, 10, 4, 10, 0, 0, 0, 0] [99, 0] 99 :=
      gives_of_run 20 (by decide +kernel)
    refine hfail [[99, 0]] [0, 99] [] _ rfl (fun q hq => ?_) ?_
    · cases List.mem_singleton.1 hq
      exact ⟨99, hfirst⟩
    · have hv : ((amplify 20 .feedback [3, 12, 3, 13, 1, 12, 13, 10, 4, 10, 0, 0, 0, 0] [0, 99]
          0).run.run (.empty false)).map (Circuit.failure? ·.1) = some (some (.interrupted
            (.failed (.fault (.badInstruction 0 10 .unknownOperation))))) := by decide +kernel
      obtain ⟨⟨result, next⟩, hr, he⟩ := Option.map_eq_some_iff.1 hv
      cases Circuit.failure?_eq_some_iff.1 he
      exact comesTo_amplify hr

end Wordcode
