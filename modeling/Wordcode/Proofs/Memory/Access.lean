import Wordcode.Memory.Lemmas

/-!
# Accesses in a row

An instruction accesses several cells, one after another, and each access may
grow the memory before the next. What matters of such a row of addresses:

* `Admits`: all of the accesses succeed;
* `growFor`: the memory they leave, which shows the same cells;
* `admits_or_refuses`: accesses that do not all succeed get stuck at a first
  address, which is negative or too far away.
-/

namespace Wordcode.Memory

variable {m : Memory} {a b v : Int} {as bs : List Int}

/-! ## One access -/

/-- An access to `a` succeeds. -/
structure Allows (m : Memory) (a : Int) : Prop where
  nonneg : 0 ≤ a
  fits : a + 1 - m.size ≤ growthLimit

theorem allows_iff : m.Allows a ↔ 0 ≤ a ∧ a + 1 - m.size ≤ growthLimit :=
  ⟨fun h => ⟨h.nonneg, h.fits⟩, fun h => ⟨h.1, h.2⟩⟩

instance (m : Memory) (a : Int) : Decidable (m.Allows a) :=
  decidable_of_iff' _ allows_iff

/-- Why an access to `a` fails, if it does. -/
def refusal (a : Int) : AccessError := if a < 0 then .negative a else .tooLarge

theorem index_of_not_allows (h : ¬ m.Allows a) : index m.size a = .error (refusal a) := by
  simp only [index, refusal]
  by_cases ha : a < 0
  · rw [if_pos ha, if_pos ha]
  · have hl : growthLimit < a + 1 - m.size := Int.not_le.1 fun hl => h ⟨Int.not_lt.1 ha, hl⟩
    rw [if_neg ha, if_neg ha, if_pos hl]

theorem read_of_allows (h : m.Allows a) : m.read a = .ok (m.peek a, m.growTo (a.toNat + 1)) :=
  read_eq_ok_iff.2 ⟨h.nonneg, h.fits, rfl, rfl⟩

theorem read_of_not_allows (h : ¬ m.Allows a) : m.read a = .error (refusal a) :=
  read_error_iff.2 (index_of_not_allows h)

/-- The memory with `v` at `a`, grown to hold that address. -/
def put (m : Memory) (a v : Int) : Memory :=
  ⟨(m.growTo (a.toNat + 1)).cells.setIfInBounds a.toNat v⟩

theorem write_of_allows (h : m.Allows a) : m.write a v = .ok (m.put a v) := by
  have hi : index m.size a = .ok a.toNat :=
    index_eq_ok_iff.2 ⟨h.nonneg, h.fits, (Int.toNat_of_nonneg h.nonneg).symm⟩
  simp only [write, hi]
  rfl

@[simp] theorem size_put : (m.put a v).size = max m.size (a.toNat + 1) := by
  have hsize := size_growTo (m := m) (k := a.toNat + 1)
  simpa [put, size] using hsize

theorem write_of_not_allows (h : ¬ m.Allows a) : m.write a v = .error (refusal a) :=
  write_error_iff.2 (index_of_not_allows h)

theorem peek_put (h : m.Allows a) : (m.put a v).peek b = if b = a then v else m.peek b :=
  peek_of_write (write_of_allows h)

theorem lt_size_of_peek_ne_zero (h : m.peek a ≠ 0) : 0 ≤ a ∧ a < m.size := by
  exact ⟨Int.not_lt.1 fun ha => h (peek_of_neg ha), Int.not_le.1 fun ha => h (peek_of_size_le ha)⟩

theorem growTo_of_le {k : Nat} (h : k ≤ m.size) : m.growTo k = m := by
  simp only [growTo, size] at h ⊢
  rw [if_pos h]

/-! ## Several accesses -/

/-- The memory after accesses to the addresses. -/
def growFor (m : Memory) (as : List Int) : Memory :=
  as.foldl (fun m a => m.growTo (a.toNat + 1)) m

@[simp] theorem growFor_nil : m.growFor [] = m := rfl

@[simp] theorem growFor_cons : m.growFor (a :: as) = (m.growTo (a.toNat + 1)).growFor as := rfl

@[simp] theorem growFor_append : m.growFor (as ++ bs) = (m.growFor as).growFor bs :=
  List.foldl_append ..

/-- Growing for any accesses shows at no address. -/
@[simp] theorem peek_growFor : (m.growFor as).peek b = m.peek b := by
  induction as generalizing m with
  | nil => rfl
  | cons a as ih => rw [growFor_cons, ih, peek_growTo]

theorem size_le_size_growFor : m.size ≤ (m.growFor as).size := by
  induction as generalizing m with
  | nil => exact Nat.le_refl _
  | cons a as ih =>
    rw [growFor_cons]
    refine Nat.le_trans ?_ ih
    rw [size_growTo]
    omega

/-- Accesses to the addresses, in their order, all succeed. -/
def Admits (m : Memory) : List Int → Prop
  | [] => True
  | a :: as => m.Allows a ∧ (m.growTo (a.toNat + 1)).Admits as

@[simp] theorem admits_nil : m.Admits [] := trivial

@[simp] theorem admits_cons :
    m.Admits (a :: as) ↔ m.Allows a ∧ (m.growTo (a.toNat + 1)).Admits as := Iff.rfl

theorem nonneg_of_admits (h : m.Admits as) : ∀ a ∈ as, 0 ≤ a := by
  induction as generalizing m with
  | nil => simp
  | cons a as ih =>
    rw [admits_cons] at h
    exact List.forall_mem_cons.2 ⟨h.1.nonneg, ih h.2⟩

/-- Accesses that do not all succeed get stuck at a first address. -/
theorem admits_or_refuses (m : Memory) (as : List Int) :
    m.Admits as ∨ ∃ before a after,
      as = before ++ a :: after ∧ m.Admits before ∧ ¬ (m.growFor before).Allows a := by
  induction as generalizing m with
  | nil => exact .inl trivial
  | cons a as ih =>
    by_cases ha : m.Allows a
    · rcases ih (m.growTo (a.toNat + 1)) with h | ⟨before, b, after, rfl, h, hb⟩
      · exact .inl ⟨ha, h⟩
      · exact .inr ⟨a :: before, b, after, rfl, ⟨ha, h⟩, hb⟩
    · exact .inr ⟨[], a, as, rfl, trivial, ha⟩

end Wordcode.Memory
