import Wordcode.Memory.Basic

/-!
# Lemmas about memory

A memory is seen through `size` and `peek`. Growing adds cells that were already read as zero, so it
changes no `peek`; a write changes `peek` at its address only; and an access leaves the memory just
large enough for its address.
-/

namespace Wordcode.Memory

variable {m n : Memory} {a b v : Int} {i k : Nat}

/-! ## Growing -/

@[simp] theorem size_growTo : (m.growTo k).size = max m.size k := by
  simp only [growTo, size]
  split
  · omega
  · simp
    omega

/-- Growing shows at no address. -/
@[simp] theorem peek_growTo : (m.growTo k).peek a = m.peek a := by
  simp only [growTo, peek]
  split
  · rfl
  · split
    · rfl
    · simp only [Array.getD_eq_getD_getElem?, Array.getElem?_append, Array.getElem?_replicate]
      split
      · rfl
      · rename_i h
        rw [Array.getElem?_eq_none (by omega)]
        split <;> rfl

theorem getD_growTo : (m.growTo k).cells.getD i 0 = m.peek i := by
  rw [← peek_growTo (k := k), peek, if_neg (by omega), Int.toNat_natCast]

/-! ## The cells of a program -/

@[simp] theorem size_ofList (words : List Int) : (ofList words).size = words.length := by
  simp [ofList, size]

@[simp] theorem toList_ofList (words : List Int) : (ofList words).toList = words := by
  simp [ofList, toList]

theorem peek_of_neg (h : a < 0) : m.peek a = 0 := by
  simp [peek, h]

theorem peek_of_size_le (h : m.size ≤ a) : m.peek a = 0 := by
  have : ¬ a < 0 := by omega
  simp only [peek, if_neg this, Array.getD_eq_getD_getElem?]
  rw [Array.getElem?_eq_none (by simp only [size] at h; omega)]
  rfl

/-- The cells are what is seen of them. -/
theorem toList_eq_map_peek : m.toList = (List.range m.size).map fun k : Nat => m.peek k := by
  refine List.ext_getElem (by simp [toList, size]) fun k hk _ => ?_
  have hlt : k < m.cells.size := by simpa [toList] using hk
  have hneg : ¬ (k : Int) < 0 := by omega
  simp only [toList, peek, List.getElem_map, List.getElem_range, if_neg hneg, Int.toNat_natCast,
    Array.getElem_toList, Array.getD, dif_pos hlt]
  rfl

/-- Memories are equal if nothing tells them apart. -/
theorem eq_of_peek_eq (hsize : m.size = n.size) (hpeek : ∀ a, m.peek a = n.peek a) : m = n := by
  refine Memory.ext (Array.toList_inj.1 ?_)
  show m.toList = n.toList
  rw [toList_eq_map_peek, toList_eq_map_peek, hsize]
  exact List.map_congr_left fun k _ => hpeek k

/-! ## Which accesses succeed -/

theorem index_eq_ok_iff :
    index k a = .ok i ↔ 0 ≤ a ∧ a + 1 - k ≤ growthLimit ∧ a = i := by
  simp only [index]
  split
  · simp only [reduceCtorEq, false_iff]
    omega
  · split
    · simp only [reduceCtorEq, false_iff]
      omega
    · simp only [Except.ok.injEq]
      omega

theorem index_eq_negative_iff : index k a = .error (.negative b) ↔ a < 0 ∧ a = b := by
  simp only [index]
  split
  · simp_all
  · split
    · simp only [Except.error.injEq, reduceCtorEq, false_iff]
      omega
    · simp only [reduceCtorEq, false_iff]
      omega

/-! ## Reading and writing -/

theorem read_eq_ok_iff :
    m.read a = .ok (v, n) ↔
      0 ≤ a ∧ a + 1 - m.size ≤ growthLimit ∧ v = m.peek a ∧ n = m.growTo (a.toNat + 1) := by
  simp only [read]
  split
  · rename_i e h
    simp only [reduceCtorEq, false_iff]
    rintro ⟨h₀, h₁, -⟩
    rw [index_eq_ok_iff.2 ⟨h₀, h₁, (Int.toNat_of_nonneg h₀).symm⟩] at h
    cases h
  · rename_i i h
    obtain ⟨h₀, h₁, rfl⟩ := index_eq_ok_iff.1 h
    simp only [Except.ok.injEq, Prod.mk.injEq, getD_growTo, Int.toNat_natCast]
    constructor
    · rintro ⟨rfl, rfl⟩
      exact ⟨h₀, h₁, rfl, rfl⟩
    · rintro ⟨-, -, rfl, rfl⟩
      exact ⟨rfl, rfl⟩

theorem index_of_write (h : m.write a v = .ok n) :
    ∃ i, index m.size a = .ok i ∧ n = ⟨(m.growTo (i + 1)).cells.setIfInBounds i v⟩ := by
  simp only [write] at h
  split at h
  · cases h
  · rename_i i hi
    cases h
    exact ⟨i, hi, rfl⟩

theorem size_of_write (h : m.write a v = .ok n) : n.size = max m.size (a.toNat + 1) := by
  obtain ⟨i, hi, rfl⟩ := index_of_write h
  obtain ⟨-, -, rfl⟩ := index_eq_ok_iff.1 hi
  simpa [size] using size_growTo (m := m) (k := i + 1)

/-- A write shows at its address and nowhere else. -/
theorem peek_of_write (h : m.write a v = .ok n) :
    n.peek b = if b = a then v else m.peek b := by
  obtain ⟨i, hi, rfl⟩ := index_of_write h
  obtain ⟨-, -, rfl⟩ := index_eq_ok_iff.1 hi
  have hsize := size_growTo (m := m) (k := i + 1)
  simp only [size] at hsize
  by_cases hb : b < 0
  · rw [peek_of_neg hb, if_neg (by omega), peek_of_neg hb]
  · obtain ⟨j, rfl⟩ := Int.eq_ofNat_of_zero_le (Int.not_lt.1 hb)
    rw [← peek_growTo (m := m) (k := i + 1)]
    simp only [peek, if_neg hb, Int.toNat_natCast, Array.getD_eq_getD_getElem?,
      Array.getElem?_setIfInBounds]
    by_cases hij : i = j
    · subst hij
      rw [if_pos rfl, if_pos (by omega), if_pos rfl, Option.getD_some]
    · rw [if_neg hij, if_neg (by omega)]

theorem read_error_iff {e : AccessError} :
    m.read a = .error e ↔ index m.size a = .error e := by
  simp only [read]
  split <;> simp_all

theorem write_error_iff {e : AccessError} :
    m.write a v = .error e ↔ index m.size a = .error e := by
  simp only [write]
  split <;> simp_all

end Wordcode.Memory
