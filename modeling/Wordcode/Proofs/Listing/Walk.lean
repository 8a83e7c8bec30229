import Wordcode.Machine.Step

/-!
# Walks along the words

Where a walk along the words of a memory can begin at all, there is a word at
every address that it comes to: the addresses only grow, and behind the last word
the walk is over. So nothing on the way is missing, and what a line shows is settled
by its address (`shown`). The lines to the end are a list (`walk`), of which a
count leaves the first ones (`listed`), and each of its lines begins a walk of its
own (`walk_of_walk_append`). These lines are what a walk comes to, or on a host that
limits digits the walk fails at one of them (`collect_of_reaches`).

The words are those of a machine's memory, and from address 0 on a line shows what
the machine finds there (`shown_cells`).
-/

namespace Wordcode

namespace Listing

variable {limit : DigitLimit} {words : Array Int} {a : Int} {found : Array Line} {line : Line}
  {before after : List Line}

/-- A walk along the words can begin at the address. -/
def Reaches (words : Array Int) (a : Int) : Prop := -words.size ≤ a ∧ leastIndex ≤ a

instance (words : Array Int) (a : Int) : Decidable (Reaches words a) :=
  inferInstanceAs (Decidable (_ ∧ _))

/-- Why there is no word at an address that no walk can begin at. -/
def whyNot (a : Int) : LookupError := if a < leastIndex then .tooLow else .noWord

theorem reaches_of_nonneg (h : 0 ≤ a) : Reaches words a := by
  refine ⟨by omega, ?_⟩
  simp only [leastIndex]
  omega

theorem Reaches.add (h : Reaches words a) (k : Nat) : Reaches words (a + k) := by
  obtain ⟨hsize, hleast⟩ := h
  exact ⟨by omega, by omega⟩

/-! ## Words -/

/-- The word at an address, which counts from the end if it is negative. Behind the
last word there is 0. -/
def cell (words : Array Int) (a : Int) : Int :=
  words.getD (if 0 ≤ a then a else words.size + a).toNat 0

theorem wordAt_of_reaches (h : Reaches words a) (ha : a < words.size) :
    wordAt words a = .ok (cell words a) := by
  obtain ⟨hsize, hleast⟩ := h
  have hnot : ¬ a < leastIndex := Int.not_lt.2 hleast
  by_cases hneg : 0 ≤ a
  · have hlt : a.toNat < words.size := by omega
    simp [wordAt, cell, hnot, hneg, hlt]
  · have hback : -a ≤ words.size := by omega
    have hlt : words.size - (-a).toNat < words.size := by omega
    have hindex : (words.size + a).toNat = words.size - (-a).toNat := by omega
    simp [wordAt, cell, hnot, hneg, hback, hindex, hlt]

theorem wordAt_of_not_reaches (h : ¬ Reaches words a) : wordAt words a = .error (whyNot a) := by
  by_cases hleast : a < leastIndex
  · simp only [wordAt, whyNot, if_pos hleast]
  · have hneg : ¬ 0 ≤ a := fun ha => h (reaches_of_nonneg ha)
    have hback : ¬ -a ≤ words.size := fun ha => h ⟨by omega, Int.not_lt.1 hleast⟩
    simp only [wordAt, whyNot, if_neg hleast, if_neg hneg, if_neg hback]

theorem literalAt_of_reaches (h : Reaches words a) : literalAt words a = .ok (cell words a) := by
  by_cases ha : words.size ≤ a
  · have hneg : 0 ≤ a := by omega
    simp [literalAt, cell, ha, hneg]
  · rw [literalAt, if_neg ha, wordAt_of_reaches h (Int.not_le.1 ha)]

/-! ## Lines -/

/-- The parameter words behind an address. -/
def operands (words : Array Int) (a : Int) (arity : Nat) : List Int :=
  (List.range arity).map fun k : Nat => cell words (a + 1 + k)

/-- What a line shows that begins at the address. -/
def shown (words : Array Int) (a : Int) : Content :=
  match decode (cell words a) with
  | .ok i => .instruction i (operands words a i.opcode.arity)
  | .error _ => .data (cell words a)

theorem literals_of_reaches (h : Reaches words a) (arity : Nat) :
    literals words a arity = .ok (operands words a arity) := by
  have hword : ∀ k : Nat, literalAt words (a + 1 + k) = pure (cell words (a + 1 + k)) := fun k =>
    literalAt_of_reaches ((h.add 1).add k)
  rw [literals, funext hword]
  exact List.mapM_pure

theorem contentAt_of_reaches (h : Reaches words a) (ha : a < words.size) :
    contentAt words a = .ok (shown words a) := by
  simp only [contentAt, shown, wordAt_of_reaches h ha, bind, Except.bind]
  split
  · next hd => rw [hd]; rfl
  · next i hd => rw [hd, literals_of_reaches h]; rfl

theorem contentAt_of_not_reaches (h : ¬ Reaches words a) :
    contentAt words a = .error (whyNot a) := by
  simp only [contentAt, wordAt_of_not_reaches h, bind, Except.bind]

/-- The lines from an address to the end. -/
def walk (words : Array Int) (a : Int) : List Line :=
  if a < words.size then ⟨a, shown words a⟩ :: walk words (a + (shown words a).size) else []
termination_by (words.size - a).toNat
decreasing_by
  have := (shown words a).size_pos
  omega

theorem walk_of_lt (h : a < words.size) :
    walk words a = ⟨a, shown words a⟩ :: walk words (a + (shown words a).size) := by
  rw [walk, if_pos h]

theorem walk_of_size_le (h : words.size ≤ a) : walk words a = [] := by
  rw [walk, if_neg (by omega)]

theorem walk_eq_nil_iff : walk words a = [] ↔ words.size ≤ a := by
  by_cases h : a < words.size
  · rw [walk_of_lt h]
    exact iff_of_false nofun (by omega)
  · exact iff_of_true (walk_of_size_le (Int.not_lt.1 h)) (Int.not_lt.1 h)

/-- The lines from an address on, at most `count` if one is given. -/
def listed (words : Array Int) (a : Int) (count : Option Nat) : List Line :=
  count.elim (walk words a) fun k => (walk words a).take k

theorem listed_of_lt {count : Option Nat} (ha : a < words.size) (hcount : count ≠ some 0) :
    listed words a count = ⟨a, shown words a⟩ ::
      listed words (a + (shown words a).size) (count.map (· - 1)) := by
  cases count with
  | none => exact walk_of_lt ha
  | some k =>
    obtain ⟨k, rfl⟩ := Nat.exists_eq_succ_of_ne_zero fun hk => hcount (congrArg some hk)
    simp only [listed, Option.elim_some, Option.map_some, walk_of_lt ha]
    rfl

theorem listed_zero : listed words a (some 0) = [] := rfl

theorem listed_of_size_le {count : Option Nat} (ha : words.size ≤ a) :
    listed words a count = [] := by
  cases count with
  | none => exact walk_of_size_le ha
  | some k => rw [listed, Option.elim_some, walk_of_size_le ha, List.take_nil]

theorem mem_walk_of_mem_listed {count : Option Nat} (h : line ∈ listed words a count) :
    line ∈ walk words a := by
  cases count with
  | none => exact h
  | some k => exact List.mem_of_mem_take h

/-- A host with the limit writes the texts of the lines. -/
def WritesLines (limit : DigitLimit) (lines : List Line) : Prop :=
  ∀ line ∈ lines, limit.Writes line.content.numbers

instance (limit : DigitLimit) (lines : List Line) : Decidable (WritesLines limit lines) :=
  inferInstanceAs (Decidable (∀ line ∈ lines, limit.Writes line.content.numbers))

@[simp] theorem writesLines_none (lines : List Line) : WritesLines none lines :=
  fun _ _ => DigitLimit.writes_none _

@[simp] theorem writesLines_nil (limit : DigitLimit) : WritesLines limit [] :=
  List.forall_mem_nil _

theorem lineAt_of_reaches (h : Reaches words a) (ha : a < words.size) :
    lineAt limit words a =
      if limit.Writes (shown words a).numbers then .ok ⟨a, shown words a⟩
      else .error (.tooManyDigits limit.excess) := by
  rw [lineAt, contentAt_of_reaches h ha]

/-- A walk that can begin comes to its end, or to the count before, unless there is a line
with too many digits on the way. -/
theorem collect_of_reaches (limit : DigitLimit) (words : Array Int) (a : Int)
    (count : Option Nat) (found : Array Line) (h : Reaches words a) :
    collect limit words a count found =
      if WritesLines limit (listed words a count) then .ok (found ++ (listed words a count).toArray)
      else .error (.tooManyDigits limit.excess) := by
  by_cases ha : a < words.size
  · by_cases hcount : count = some 0
    · rw [hcount, collect_zero, listed_zero, if_pos (writesLines_nil _), Array.append_empty]
    · have hpos := (shown words a).size_pos
      rw [collect, if_pos ha, if_neg hcount, lineAt_of_reaches h ha, listed_of_lt ha hcount]
      by_cases hline : limit.Writes (shown words a).numbers
      · have hrest (lines : List Line) : WritesLines limit (⟨a, shown words a⟩ :: lines) ↔
            WritesLines limit lines := List.forall_mem_cons.trans (and_iff_right hline)
        simp only [if_pos hline, hrest]
        rw [collect_of_reaches limit words _ _ _ (h.add _)]
        simp
      · have hnot (lines : List Line) : ¬ WritesLines limit (⟨a, shown words a⟩ :: lines) :=
          fun hlines => hline (hlines _ List.mem_cons_self)
        simp only [if_neg hline, if_neg (hnot _)]
  · rw [collect_of_size_le (Int.not_lt.1 ha), listed_of_size_le (Int.not_lt.1 ha),
      if_pos (writesLines_nil _), Array.append_empty]
termination_by (words.size - a).toNat

theorem collect_of_not_reaches {count : Option Nat} (h : ¬ Reaches words a)
    (hcount : count ≠ some 0) :
    collect limit words a count found = .error (.own (whyNot a)) := by
  have ha : a < words.size := by
    have hneg : ¬ 0 ≤ a := fun ha => h (reaches_of_nonneg ha)
    omega
  rw [collect, if_pos ha, if_neg hcount, lineAt, contentAt_of_not_reaches h]

theorem disassemble_of_reaches (h : Reaches words a) (count : Option Int) :
    disassemble limit words a count =
      if WritesLines limit (listed words a (count.map Int.toNat)) then
        .ok (listed words a (count.map Int.toNat)).toArray
      else .error (.tooManyDigits limit.excess) := by
  rw [disassemble, collect_of_reaches _ _ _ _ _ h, Array.empty_append]

/-- Without a limit on digits a walk that can begin lists all its lines. -/
theorem disassemble_none (h : Reaches words a) (count : Option Int) :
    disassemble none words a count = .ok (listed words a (count.map Int.toNat)).toArray := by
  rw [disassemble_of_reaches h, if_pos (writesLines_none _)]

/-- The one line at an address. -/
theorem disassemble_one (limit : DigitLimit) (h : 0 ≤ a) (ha : a < words.size) :
    disassemble limit words a (some 1) =
      if limit.Writes (shown words a).numbers then .ok #[⟨a, shown words a⟩]
      else .error (.tooManyDigits limit.excess) := by
  have hone : listed words a (some 1) = [⟨a, shown words a⟩] := by
    rw [listed_of_lt ha (by decide)]
    rfl
  have hwrites : WritesLines limit [⟨a, shown words a⟩] ↔ limit.Writes (shown words a).numbers :=
    List.forall_mem_singleton
  rw [disassemble_of_reaches (reaches_of_nonneg h)]
  show (if WritesLines limit (listed words a (some 1)) then _ else _) = _
  simp only [Option.map_some, Int.toNat_one, hone, hwrites]

theorem disassemble_of_not_reaches {count : Option Int} (h : ¬ Reaches words a)
    (hcount : ∀ c ∈ count, 0 < c) :
    disassemble limit words a count = .error (.own (whyNot a)) := by
  refine collect_of_not_reaches h fun hzero => ?_
  obtain ⟨c, hc, hnat⟩ := Option.map_eq_some_iff.1 hzero
  have := hcount c hc
  omega

theorem disassemble_of_nonpos {count : Int} (h : count ≤ 0) :
    disassemble limit words a (some count) = .ok #[] := by
  rw [disassemble, Option.map_some, Int.toNat_of_nonpos h, collect_zero]

/-- A walk that cannot begin lists no lines, whatever the host writes. -/
theorem disassemble_cases (words : Array Int) (a : Int) (count : Option Int) :
    Reaches words a ∨ (∀ limit : DigitLimit, disassemble limit words a count = .ok #[]) ∨
      ∀ limit : DigitLimit, disassemble limit words a count = .error (.own (whyNot a)) := by
  by_cases h : Reaches words a
  · exact .inl h
  · refine .inr ?_
    cases count with
    | none => exact .inr fun _ => disassemble_of_not_reaches h fun _ hc => nomatch hc
    | some count =>
      by_cases hcount : count ≤ 0
      · exact .inl fun _ => disassemble_of_nonpos hcount
      · refine .inr fun _ => disassemble_of_not_reaches h fun c hc => ?_
        obtain rfl := Option.some.inj (Option.mem_def.1 hc)
        exact Int.not_le.1 hcount

/-- A listing has lines of the walk from its start only. -/
theorem mem_walk_of_mem_disassemble {count : Option Int} {lines : Array Line}
    (h : disassemble limit words a count = .ok lines) (hline : line ∈ lines) :
    line ∈ walk words a := by
  rcases disassemble_cases words a count with hr | hempty | herror
  · rw [disassemble_of_reaches hr] at h
    split at h
    · cases h
      exact mem_walk_of_mem_listed (List.mem_toArray.1 hline)
    · cases h
  · cases (hempty limit).symm.trans h
    exact absurd hline (Array.not_mem_empty _)
  · cases (herror limit).symm.trans h

/-! ## Walks inside walks -/

/-- A line shows what stands at its address, which lies on the way. -/
theorem of_mem_walk (h : line ∈ walk words a) :
    a ≤ line.address ∧ line.address < words.size ∧ line.content = shown words line.address := by
  fun_induction walk words a with
  | case1 a ha ih =>
    rcases List.mem_cons.1 h with rfl | h
    · exact ⟨Int.le_refl _, ha, rfl⟩
    · obtain ⟨hle, hlt, hc⟩ := ih h
      exact ⟨by omega, hlt, hc⟩
  | case2 a ha => cases h

/-- From a line on a walk goes as one that begins there. -/
theorem walk_of_walk_append (h : walk words a = before ++ line :: after) :
    walk words line.address = line :: after := by
  induction before generalizing a with
  | nil =>
    have ha : a < words.size := Int.not_le.1 fun ha => by
      rw [walk_of_size_le ha] at h
      cases h
    have hline := walk_of_lt ha
    rw [h] at hline
    cases hline
    exact h
  | cons first before ih =>
    have ha : a < words.size := Int.not_le.1 fun ha => by
      rw [walk_of_size_le ha] at h
      cases h
    rw [walk_of_lt ha] at h
    exact ih (List.cons.inj h).2

/-! ## The words of a memory -/

theorem cell_cells {memory : Memory} (ha : 0 ≤ a) : cell memory.cells a = memory.peek a := by
  simp only [cell, Memory.peek, if_pos ha, if_neg (Int.not_lt.2 ha)]

theorem operands_cells {memory : Memory} (ha : 0 ≤ a) (arity : Nat) :
    operands memory.cells a arity = Machine.literalsAt memory a arity := by
  refine List.map_congr_left fun k _ => cell_cells ?_
  omega

/-- What a line shows that begins at an address of a memory. -/
theorem shown_cells {memory : Memory} (ha : 0 ≤ a) : shown memory.cells a =
    match decode (memory.peek a) with
    | .ok i => .instruction i (Machine.literalsAt memory a i.opcode.arity)
    | .error _ => .data (memory.peek a) := by
  simp only [shown, cell_cells ha, operands_cells ha]

end Listing

end Wordcode
