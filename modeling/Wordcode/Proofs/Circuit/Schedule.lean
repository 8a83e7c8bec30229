import Wordcode.Proofs.Circuit.History
import Wordcode.Proofs.Machine.Replay

/-!
# Rings under any schedule

The amplifiers of a feedback loop, wired to a ring and left to themselves: at any
time any amplifier may make a step, or the oldest of its outputs may move on to
the next amplifier. A schedule is a list of such moves.
-/

namespace Wordcode

open Machine

namespace Circuit

/-- An amplifier of a ring, with its history. -/
structure Station where
  machine : Machine
  history : List Machine

namespace Station

/-- All values that the amplifier was given. -/
def delivered (s : Station) : List Int := Machine.delivered s.history s.machine

/-- The amplifier after a step. -/
def step (s : Station) : Station := ⟨s.machine.after, s.history ++ [s.machine]⟩

/-- The amplifier without its oldest output. -/
def release (s : Station) : Station :=
  { s with machine := { s.machine with outputs := s.machine.outputs.tail } }

/-- The amplifier with a value queued. -/
def receive (s : Station) (v : Int) : Station := { s with machine := s.machine.addInputs [v] }

variable {s : Station} {v : Int}

theorem delivered_step : s.step.delivered = s.delivered := by
  have hs := s.machine.trades_step.inputs
  rw [delivered, delivered, Machine.delivered, Machine.delivered, step, taken_append,
    taken_singleton, List.append_assoc, hs]

theorem delivered_receive : (s.receive v).delivered = s.delivered ++ [v] := by
  rw [delivered, delivered, Machine.delivered, Machine.delivered, List.append_assoc]
  exact congrArg _ Queue.toList_extend

theorem sent_step : sent s.step.history = sent s.history ++ s.machine.sends := by
  rw [step, sent_append, sent_singleton]

theorem outputs_step :
    s.step.machine.outputs.toList = s.machine.outputs.toList ++ s.machine.sends :=
  s.machine.trades_step.outputs

theorem outputs_release :
    s.release.machine.outputs.toList = s.machine.outputs.toList.tail := Queue.toList_tail

end Station

/-- What can happen in a ring. -/
inductive Move where
  /-- A step of the `i`-th amplifier. -/
  | step (i : Nat)
  /-- The oldest output of the `i`-th amplifier moves on. -/
  | pass (i : Nat)

/-- The ring after a move, if the move can be made. -/
def move (ring : List Station) : Move → Option (List Station)
  | .step i =>
    match ring[i]? with
    | none => none
    | some s => if s.machine.IsRunning then some (ring.modify i Station.step) else none
  | .pass i =>
    match ring[i]? with
    | none => none
    | some s =>
      match s.machine.outputs.toList with
      | [] => none
      | v :: _ =>
        some ((ring.modify i Station.release).modify ((i + 1) % ring.length) (·.receive v))

/-- The ring after the moves of a schedule. -/
def moves (ring : List Station) : List Move → Option (List Station)
  | [] => some ring
  | m :: schedule => (move ring m).bind (moves · schedule)

/-- The amplifiers of a circuit, which have done nothing yet. -/
def stations (circuit : Circuit) : List Station := circuit.amplifiers.map (⟨·, []⟩)

variable {i j n : Nat} {ring next : List Station} {s t : Station} {v : Int}

theorem move_step_cases (h : move ring (.step i) = some next) :
    next.length = ring.length ∧ ∃ s, ring[i]? = some s ∧ s.machine.IsRunning ∧
      ∀ j t, next[j]? = some t → ∃ u, ring[j]? = some u ∧ t = if i = j then u.step else u := by
  cases hs : ring[i]? with
  | none => simp [move, hs] at h
  | some s =>
    simp only [move, hs] at h
    split at h
    · next hr =>
      cases h
      refine ⟨List.length_modify .., s, rfl, hr, fun j t ht => ?_⟩
      rw [List.getElem?_modify] at ht
      obtain ⟨u, hu, rfl⟩ := Option.map_eq_some_iff.1 ht
      exact ⟨u, hu, rfl⟩
    · cases h

/-- What the passing of `v` makes of an amplifier `u`, which may have released
and may have received it. -/
structure Passed (v : Int) (released received : Prop) [Decidable released] [Decidable received]
    (u t : Station) : Prop where
  history : t.history = u.history
  steps : t.machine.counters.steps = u.machine.counters.steps
  delivered : t.delivered = u.delivered ++ if received then [v] else []
  outputs : t.machine.outputs.toList =
    if released then u.machine.outputs.toList.tail else u.machine.outputs.toList
  replays : ∀ program, Replays program u.history u.machine → Replays program t.history t.machine

namespace Passed

variable {p q : Prop} [Decidable p] [Decidable q] {u : Station}

theorem release (hp : p) (hv : ∃ rest, u.machine.outputs.toList = v :: rest) :
    Passed v p False u u.release where
  history := rfl
  steps := rfl
  delivered := (List.append_nil _).symm
  outputs := by
    rw [if_pos hp]
    exact Station.outputs_release
  replays program hu := by
    obtain ⟨rest, hrest⟩ := hv
    have htail : [v] ++ u.machine.outputs.tail.toList = u.machine.outputs.toList := by
      rw [Queue.toList_tail, hrest]
      rfl
    exact hu.of_outputs htail

theorem keep (hp : ¬ p) : Passed v p False u u where
  history := rfl
  steps := rfl
  delivered := (List.append_nil _).symm
  outputs := (if_neg hp).symm
  replays _ hu := hu

theorem receive (h : Passed v p False u t) (hq : q) : Passed v p q u (t.receive v) where
  history := h.history
  steps := h.steps
  delivered := by
    rw [Station.delivered_receive, h.delivered, if_pos hq, if_neg id, List.append_nil]
  outputs := h.outputs
  replays program hu := (h.replays program hu).addInputs

theorem skip (h : Passed v p False u t) (hq : ¬ q) : Passed v p q u t where
  history := h.history
  steps := h.steps
  delivered := by rw [h.delivered, if_neg hq, if_neg id]
  outputs := h.outputs
  replays := h.replays

end Passed

theorem move_pass_cases (h : move ring (.pass i) = some next) :
    next.length = ring.length ∧ ∃ s v rest, ring[i]? = some s ∧
      s.machine.outputs.toList = v :: rest ∧ ∀ j t, next[j]? = some t →
        ∃ u, ring[j]? = some u ∧ Passed v (i = j) ((i + 1) % ring.length = j) u t := by
  cases hs : ring[i]? with
  | none => simp [move, hs] at h
  | some s =>
    simp only [move, hs] at h
    split at h
    · cases h
    · next v rest hv =>
      cases h
      refine ⟨by rw [List.length_modify, List.length_modify], s, v, rest, rfl, hv,
        fun j t ht => ?_⟩
      rw [List.getElem?_modify, List.getElem?_modify] at ht
      obtain ⟨u', hu', rfl⟩ := Option.map_eq_some_iff.1 ht
      obtain ⟨u, hu, rfl⟩ := Option.map_eq_some_iff.1 hu'
      have hreleased : Passed v (i = j) False u (if i = j then u.release else u) := by
        split
        · next hij =>
          subst hij
          cases hs.symm.trans hu
          exact .release rfl ⟨rest, hv⟩
        · next hij => exact .keep hij
      refine ⟨u, hu, ?_⟩
      by_cases hj : (i + 1) % ring.length = j
      · rw [if_pos hj]
        exact hreleased.receive hj
      · rw [if_neg hj]
        exact hreleased.skip hj

end Circuit

end Wordcode
