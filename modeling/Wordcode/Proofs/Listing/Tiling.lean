import Wordcode.Proofs.Listing.Walk

/-!
# Listings leave no gaps

The lines of a listing lie one behind the other: each begins where the one before
it ends, the first at the start address, and the last reaches the end of the words
(`Tiling`). How far a line reaches depends on the word at its address only
(`stride`), so a listing that begins at one of the lines goes on as this one, and
a listing that is cut shows the first of its lines (`disassemble_tiles`).
-/

namespace Wordcode

namespace Listing

variable {words : Array Int} {a : Int}

/-- How many words a line covers that begins at the address: an instruction also
covers its parameters. -/
def stride (words : Array Int) (a : Int) : Nat :=
  match decode (cell words a) with
  | .ok i => 1 + i.opcode.arity
  | .error _ => 1

/-- The lines begin at the start and cover all words from there on, without gaps and
without overlaps. -/
structure Tiling (words : Array Int) (start : Int) (lines : List Line) : Prop where
  nil_iff : lines = [] ↔ words.size ≤ start
  head : ∀ line ∈ lines.head?, line.address = start
  next : ∀ (before after : List Line) (line next : Line),
    lines = before ++ line :: next :: after →
      next.address = line.address + stride words line.address
  inside : ∀ line ∈ lines, line.address < words.size
  covers : ∀ (before : List Line) (last : Line), lines = before ++ [last] →
    words.size ≤ last.address + stride words last.address
  shows : ∀ line ∈ lines, line.content = shown words line.address

theorem size_shown : (shown words a).size = stride words a := by
  unfold shown stride
  cases decode (cell words a) <;> rfl

/-- What follows the first line of a walk is the walk behind it. -/
theorem walk_tail {line : Line} {after : List Line} (h : walk words a = line :: after) :
    line.address = a ∧ walk words (a + stride words a) = after := by
  have ha : a < words.size := Int.not_le.1 fun ha => by
    rw [walk_of_size_le ha] at h
    cases h
  rw [walk_of_lt ha, size_shown] at h
  obtain ⟨hline, hafter⟩ := List.cons.inj h
  exact ⟨by rw [← hline], hafter⟩

theorem tiling_walk (words : Array Int) (start : Int) : Tiling words start (walk words start) where
  nil_iff := walk_eq_nil_iff
  head line hline := by
    obtain ⟨after, h⟩ := List.head?_eq_some_iff.1 hline
    exact (walk_tail h).1
  next before after line next h := by
    have hrest := (walk_tail (walk_of_walk_append h)).2
    exact (walk_tail hrest).1
  inside line hline := (of_mem_walk hline).2.1
  covers before last h := by
    have hrest := (walk_tail (walk_of_walk_append h)).2
    exact walk_eq_nil_iff.1 hrest
  shows line hline := (of_mem_walk hline).2.2

-- From the last word, which begins an instruction, through the first one.
example : disassemble none #[7, 99, 104] (-1) none =
    .ok #[⟨-1, .instruction (.output .immediate) [7]⟩, ⟨1, .instruction .halt []⟩,
      ⟨2, .instruction (.output .immediate) [0]⟩] := by
  rw [disassemble_none (by decide)]
  simp +decide [listed, walk, shown]

-- The operand of three digits stops a host that writes two; the first line alone does not.
example : disassemble (some 2) #[99, 104, 100] 0 none = .error (.tooManyDigits ⟨2, none⟩) ∧
    disassemble (some 2) #[99, 104, 100] 0 (some 1) = .ok #[⟨0, .instruction .halt []⟩] := by
  rw [disassemble_of_reaches (by decide), disassemble_of_reaches (by decide)]
  simp +decide [listed, walk, shown, DigitLimit.excess]

end Listing

end Wordcode
