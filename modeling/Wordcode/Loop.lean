/-!
# Loops that need not end

A program may run for ever, so whatever runs a program is a loop without a bound. `loop` repeats a
round at most `fuel` times and yields `none` if that was not enough. More fuel never changes an
answer (`loop_mono`), so a loop ends iff some amount of fuel is enough, and then with one answer.
-/

namespace Wordcode

/-- What a round of a loop yields. -/
inductive Progress (σ ρ : Type) where
  /-- The loop goes on with a new state. -/
  | again (state : σ)
  /-- The loop has ended. -/
  | done (result : ρ)

variable {σ ρ : Type} {next : σ → Progress σ ρ} {n k : Nat} {s : σ} {r : ρ}

/-- The result of repeating a round until it ends the loop, or `none` if `fuel` rounds do not. -/
def loop (next : σ → Progress σ ρ) : Nat → σ → Option ρ
  | 0, _ => none
  | fuel + 1, s =>
    match next s with
    | .again s => loop next fuel s
    | .done r => some r

@[simp] theorem loop_zero : loop next 0 s = none := rfl

theorem loop_succ_of_again {s' : σ} (h : next s = .again s') :
    loop next (n + 1) s = loop next n s' := by
  simp [loop, h]

theorem loop_succ_of_done (h : next s = .done r) : loop next (n + 1) s = some r := by
  simp [loop, h]

/-- More fuel keeps an answer. -/
theorem loop_mono (h : loop next n s = some r) (hk : n ≤ k) : loop next k s = some r := by
  induction n generalizing s k with
  | zero => simp at h
  | succ n ih =>
    obtain ⟨k, rfl⟩ : ∃ k', k = k' + 1 := ⟨k - 1, by omega⟩
    cases hs : next s with
    | again s' =>
      rw [loop_succ_of_again hs] at h ⊢
      exact ih h (by omega)
    | done r' =>
      rw [loop_succ_of_done hs] at h ⊢
      exact h

end Wordcode
