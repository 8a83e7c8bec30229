import Wordcode.Program.Patch
import Wordcode.Proofs.Memory.Access

/-!
# Patched programs

A word goes into a program where the memory that the program is loaded into would
take it, and zeros fill the program up as that memory would grow
(`patchWord_of_allows`). So whatever the memory admits can be patched, and loading
the patched program is writing the words into the memory (`patch_of_admits`). A memory
admits every address that is not further away than the host can address
(`admits_of_near`).
-/

namespace Wordcode

namespace Memory

variable {m n : Memory} {a : Int} {as : List Int}

/-- Which accesses succeed shows in the size of the memory. -/
theorem admits_congr (h : m.size = n.size) : m.Admits as ↔ n.Admits as := by
  induction as generalizing m n with
  | nil => exact Iff.rfl
  | cons a as ih =>
    have hgrown : (m.growTo (a.toNat + 1)).size = (n.growTo (a.toNat + 1)).size := by
      rw [size_growTo, size_growTo, h]
    rw [admits_cons, admits_cons, allows_iff, allows_iff, h, ih hgrown]

theorem length_toList : m.toList.length = m.size := Array.length_toList

theorem allows_of_near (h : 0 ≤ a ∧ a < growthLimit) : m.Allows a := ⟨h.1, by omega⟩

theorem admits_of_near (h : ∀ a ∈ as, 0 ≤ a ∧ a < growthLimit) : m.Admits as := by
  induction as generalizing m with
  | nil => exact admits_nil
  | cons a as ih =>
    obtain ⟨ha, has⟩ := List.forall_mem_cons.1 h
    exact ⟨allows_of_near ha, ih has⟩

end Memory

namespace Program

variable {words : List Int} {a v : Int} {overrides : List (Int × Int)}

/-- The zeros that fill a program up are those that its memory grows by. -/
theorem set_padding (words : List Int) (i : Nat) (v : Int) :
    (words ++ List.replicate (i + 1 - words.length) 0).set i v =
      ((Memory.ofList words).put i v).toList := by
  unfold Memory.put Memory.toList Memory.growTo Memory.ofList
  rw [Int.toNat_natCast]
  split
  · next hle =>
    have hpad : i + 1 - words.length = 0 := by
      rw [List.size_toArray] at hle
      omega
    rw [hpad, List.replicate_zero, List.append_nil, Array.toList_setIfInBounds]
  · rw [Array.toList_setIfInBounds, Array.toList_append, Array.toList_replicate, List.size_toArray]

theorem patchWord_of_allows (h : (Memory.ofList words).Allows a) :
    patchWord words a v = .ok ((Memory.ofList words).put a v).toList := by
  have hfits : ¬ paddingLimit < a + 1 - words.length := by
    have := h.fits
    rw [Memory.size_ofList] at this
    exact Int.not_lt.2 this
  have hneg : ¬ a < 0 := Int.not_lt.2 h.nonneg
  obtain ⟨i, rfl⟩ := Int.eq_ofNat_of_zero_le h.nonneg
  rw [patchWord, if_neg hneg, if_neg hfits]
  exact congrArg Except.ok (set_padding words i v)

theorem patch_cons :
    patch words ((a, v) :: overrides) = patchWord words a v >>= (patch · overrides) :=
  List.foldlM_cons

/-- Words that a program is patched with are written into its memory. -/
theorem patch_of_admits (h : (Memory.ofList words).Admits (overrides.map Prod.fst)) :
    patch words overrides =
      .ok (overrides.foldl (fun m o => m.put o.1 o.2) (Memory.ofList words)).toList := by
  induction overrides generalizing words with
  | nil => rfl
  | cons o overrides ih =>
    obtain ⟨a, v⟩ := o
    obtain ⟨ha, hrest⟩ := h
    have hsize : ((Memory.ofList words).growTo (a.toNat + 1)).size =
        ((Memory.ofList words).put a v).size := by
      rw [Memory.size_growTo, Memory.size_put]
    rw [patch_cons, patchWord_of_allows ha]
    exact ih ((Memory.admits_congr hsize).1 hrest)

end Program

end Wordcode
