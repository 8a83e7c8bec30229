import Wordcode.Debugger.Panels
import Wordcode.Proofs.Listing.Walk

/-!
# Where there is a listing

A walk along the words of a memory fails at its first word, or where a line cannot be
written. So there is a listing around a program counter exactly if there is none to
show, or a word at the program counter when a negative address counts from the end, and
if the lines that are made on the way to it can be written (`listingText_cases`).
-/

namespace Wordcode

namespace Debugger

open Listing

variable {limit : DigitLimit} {words : Array Int} {pc : Int} {m : Machine}
  {breakpoints : List Int}

/-- The lines of the walk that begins before the program counter. -/
def firstLines (words : Array Int) (pc : Int) : List Line :=
  listed words (max 0 (pc - 8)) (some listingLines)

/-- There are such lines, and none of them begins at the program counter. -/
def PassesOver (words : Array Int) (pc : Int) : Prop :=
  firstLines words pc ≠ [] ∧ ∀ line ∈ firstLines words pc, line.address ≠ pc

instance (words : Array Int) (pc : Int) : Decidable (PassesOver words pc) :=
  inferInstanceAs (Decidable (_ ∧ _))

/-- The lines around the program counter. -/
def shownLines (words : Array Int) (pc : Int) : List Line :=
  if PassesOver words pc then listed words pc (some listingLines) else firstLines words pc

/-- The lines that are made on the way to those. -/
def madeLines (words : Array Int) (pc : Int) : List Line :=
  firstLines words pc ++ shownLines words pc

theorem nonneg_of_mem_firstLines {line : Line} (h : line ∈ firstLines words pc) :
    0 ≤ line.address := by
  have hle := (of_mem_walk (mem_walk_of_mem_listed h)).1
  omega

theorem firstLines_of_size_eq_zero (h : words.size = 0) : firstLines words pc = [] :=
  listed_of_size_le (by omega)

theorem passesOver_of_neg (hpc : pc < 0) (hsize : 0 < words.size) : PassesOver words pc := by
  refine ⟨?_, fun line hline => ?_⟩
  · rw [firstLines, listed_of_lt (by omega) (by decide)]
    exact List.cons_ne_nil _ _
  · have := nonneg_of_mem_firstLines hline
    omega

theorem writesLines_append {lines others : List Line} : WritesLines limit (lines ++ others) ↔
    WritesLines limit lines ∧ WritesLines limit others := List.forall_mem_append

theorem writesLines_firstLines (h : WritesLines limit (madeLines words pc)) :
    WritesLines limit (firstLines words pc) := (writesLines_append.1 h).1

/-- The walk that begins before the program counter comes to its end, unless one of its
lines cannot be written. Where it passes over the program counter another one follows. -/
theorem linesAround_eq (limit : DigitLimit) (words : Array Int) (pc : Int) :
    linesAround limit words pc =
      if WritesLines limit (firstLines words pc) then
        if PassesOver words pc then disassemble limit words pc (some listingLines)
        else .ok (firstLines words pc).toArray
      else .error (.tooManyDigits limit.excess) := by
  have hfirst : disassemble limit words (max 0 (pc - 8)) (some listingLines) =
      if WritesLines limit (firstLines words pc) then .ok (firstLines words pc).toArray
      else .error (.tooManyDigits limit.excess) :=
    disassemble_of_reaches (reaches_of_nonneg (by omega)) _
  have hpasses : (!(firstLines words pc).toArray.isEmpty &&
      (firstLines words pc).toArray.all (·.address ≠ pc)) = decide (PassesOver words pc) := by
    rw [Bool.eq_iff_iff, decide_eq_true_iff]
    simp [PassesOver]
  rw [linesAround, hfirst]
  split
  · show (if _ then _ else _) = _
    rw [hpasses]
    simp only [decide_eq_true_eq]
    rfl
  · rfl

/-- There is a listing around the program counter: it is empty, or can begin there. -/
def Listed (m : Machine) : Prop := m.memory.size = 0 ∨ Reaches m.memory.cells m.pc

instance (m : Machine) : Decidable (Listed m) := inferInstanceAs (Decidable (_ ∨ _))

theorem linesAround_of_listed (limit : DigitLimit) (h : words.size = 0 ∨ Reaches words pc) :
    linesAround limit words pc =
      if WritesLines limit (madeLines words pc) then .ok (shownLines words pc).toArray
      else .error (.tooManyDigits limit.excess) := by
  by_cases hfirst : WritesLines limit (firstLines words pc)
  · rw [linesAround_eq, if_pos hfirst]
    by_cases hp : PassesOver words pc
    · have hreaches : Reaches words pc :=
        h.resolve_left fun hsize => hp.1 (firstLines_of_size_eq_zero hsize)
      have hshown : shownLines words pc = listed words pc (some listingLines) := if_pos hp
      rw [if_pos hp, disassemble_of_reaches hreaches]
      simp only [madeLines, hshown, writesLines_append, hfirst, true_and]
      rfl
    · have hshown : shownLines words pc = firstLines words pc := if_neg hp
      have hmade : WritesLines limit (madeLines words pc) := by
        rw [madeLines, writesLines_append, hshown]
        exact ⟨hfirst, hfirst⟩
      rw [if_neg hp, if_pos hmade, hshown]
  · rw [linesAround_eq, if_neg hfirst,
      if_neg fun hmade => hfirst (writesLines_firstLines hmade)]

/-- Below the words the first walk finds lines, but none at the program counter,
and the walk from there cannot begin. -/
theorem linesAround_of_not_reaches (limit : DigitLimit) (hsize : 0 < words.size)
    (h : ¬ Reaches words pc) :
    linesAround limit words pc =
      if WritesLines limit (firstLines words pc) then .error (.own (whyNot pc))
      else .error (.tooManyDigits limit.excess) := by
  have hpc : pc < 0 := Int.not_le.1 fun hpc => h (reaches_of_nonneg hpc)
  rw [linesAround_eq, if_pos (passesOver_of_neg hpc hsize),
    disassemble_of_not_reaches h (by simp [listingLines])]

/-- The listing around a program counter is made, or there is none, or a line on the way
to it cannot be written. -/
theorem listingText_cases (limit : DigitLimit) (m : Machine) (breakpoints : List Int) :
    (Listed m ∧ WritesLines limit (madeLines m.memory.cells m.pc) ∧
      ∃ text, listingText limit m breakpoints = .ok text) ∨
    (¬ Listed m ∧ listingText limit m breakpoints = .error (.own (whyNot m.pc))) ∨
    (¬ WritesLines limit (madeLines m.memory.cells m.pc) ∧
      listingText limit m breakpoints = .error (.tooManyDigits limit.excess)) := by
  by_cases h : Listed m
  · have hlines := linesAround_of_listed limit h
    by_cases hw : WritesLines limit (madeLines m.memory.cells m.pc)
    · rw [if_pos hw] at hlines
      refine .inl ⟨h, hw, ?_⟩
      simp only [listingText, listingRows, hlines, bind, Except.bind]
      exact ⟨_, rfl⟩
    · rw [if_neg hw] at hlines
      refine .inr (.inr ⟨hw, ?_⟩)
      simp only [listingText, listingRows, hlines, bind, Except.bind]
  · have hsize : 0 < m.memory.cells.size := Nat.pos_of_ne_zero fun hsize => h (.inl hsize)
    have hlines := linesAround_of_not_reaches limit hsize fun hr => h (.inr hr)
    by_cases hw : WritesLines limit (firstLines m.memory.cells m.pc)
    · rw [if_pos hw] at hlines
      refine .inr (.inl ⟨h, ?_⟩)
      simp only [listingText, listingRows, hlines, bind, Except.bind]
    · rw [if_neg hw] at hlines
      refine .inr (.inr ⟨fun hmade => hw (writesLines_firstLines hmade), ?_⟩)
      simp only [listingText, listingRows, hlines, bind, Except.bind]

end Debugger

end Wordcode
