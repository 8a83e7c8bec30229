import Wordcode.Proofs.Machine.History

/-!
# How far a memory reaches

The memory of a machine never shrinks in a step (`size_le_size_after`). As long
as it is empty no instruction can be executed, so the program counter of a
machine that has just been loaded is still where it was (`Placed`).
-/

namespace Wordcode

namespace Machine

variable {m n : Machine} {i : Instruction} {f : Failure} {e : Effect}

theorem Meets.pc_lt_size (h : m.Meets i) : 0 ≤ m.pc ∧ m.pc < m.memory.size :=
  Memory.lt_size_of_peek_ne_zero (ne_zero_of_decode h.decoded)

@[simp] theorem memory_failing : (left (n.failing f)).memory = n.memory := by
  cases f <;> rfl

@[simp] theorem pc_failing : (left (n.failing f)).pc = n.pc := by
  cases f <;> rfl

@[simp] theorem memory_waiting : m.waiting.memory = m.memory := by
  unfold waiting
  split <;> rfl

theorem size_le_size_writing : m.memory.size ≤ (m.writing e).memory.size := by
  unfold writing
  split
  · exact Nat.le_refl _
  · show _ ≤ (m.memory.put _ _).size
    rw [Memory.size_put]
    exact Nat.le_max_left ..

theorem size_le_size_touched (as : List Int) : m.memory.size ≤ (m.touched as).memory.size :=
  Memory.size_le_size_growFor

/-- A step never shrinks the memory. -/
theorem size_le_size_after (m : Machine) : m.memory.size ≤ m.after.memory.size := by
  have hr := m.stepped
  rw [after]
  generalize step m = r at hr ⊢
  cases hr with
  | faulted => exact Nat.le_refl _
  | halted => exact Nat.le_refl _
  | unreached =>
    rw [memory_failing]
    exact Nat.le_refl _
  | undecoded =>
    rw [memory_failing]
    exact size_le_size_touched _
  | @starved d =>
    show _ ≤ (m.fetched (.input d)).waiting.memory.size
    rw [memory_waiting]
    exact Nat.le_refl _
  | @unread i before =>
    rw [memory_failing]
    have ht := size_le_size_touched (m := (m.fetched i).taking (m.effect i)) before
    rwa [memory_taking] at ht
  | @unwritten i =>
    rw [memory_failing]
    have ht := size_le_size_touched (m := (m.fetched i).taking (m.effect i)) (m.effect i).reads
    rwa [memory_taking] at ht
  | @executed i =>
    have ht := size_le_size_touched (m := (m.fetched i).taking (m.effect i)) (m.effect i).reads
    rw [memory_taking] at ht
    exact Nat.le_trans ht size_le_size_writing

/-- A step on an empty memory leaves the program counter where it is. -/
theorem pc_after_or_size_pos (m : Machine) : m.after.pc = m.pc ∨ 0 < m.memory.size := by
  have hmeets : ∀ i, m.Meets i → 0 < m.memory.size := fun i h => by
    have := h.pc_lt_size
    omega
  have hr := m.stepped
  rw [after]
  generalize step m = r at hr ⊢
  cases hr with
  | faulted => exact .inl rfl
  | halted => exact .inl rfl
  | unreached => exact .inl pc_failing
  | undecoded => exact .inl pc_failing
  | starved h => exact .inr (hmeets _ h)
  | unread h => exact .inr (hmeets _ h)
  | unwritten h => exact .inr (hmeets _ h)
  | executed h => exact .inr (hmeets _ h)

/-- The memory is not empty, or the program counter is not below it. -/
def Placed (m : Machine) : Prop := 0 < m.memory.size ∨ 0 ≤ m.pc

theorem placed_load (program inputs : List Int) (verbose : Bool) :
    (load program inputs verbose).Placed := .inr (Int.le_refl 0)

theorem Placed.after (h : m.Placed) : m.after.Placed := by
  have hsize := m.size_le_size_after
  rcases m.pc_after_or_size_pos with hpc | hpos
  · rcases h with hpos | hpc₀
    · exact .inl (Nat.lt_of_lt_of_le hpos hsize)
    · exact .inr (by rwa [hpc])
  · exact .inl (Nat.lt_of_lt_of_le hpos hsize)

end Machine

end Wordcode
