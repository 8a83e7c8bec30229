import Wordcode.Proofs.Memory.Access

/-!
# Calls to a memory

A memory is read and written, looked at, copied and measured, in any order, and used
on after an access that was refused. Each such call is answered (`answer`), and the
exchanges of calls and answers tell what the memory holds by then (`Reflects`): at each
address the value that was last written there, or else the word of the program, or else
0, and as many cells as the furthest access has needed.

What a call can come to is said once (`Answered`). What one call keeps of this
(`Reflects.next`) all calls keep (`Reflects.after`), and so every answer is the one that
is due after the exchanges before it (`answers_due`).
-/

namespace Wordcode

namespace Memory

/-- A call to a memory. -/
inductive Call where
  | read (address : Int)
  | write (address value : Int)
  | peek (address : Int)
  | snapshot
  | size
deriving DecidableEq, Repr

/-- What a memory answers to a call. -/
inductive Answer where
  /-- The value of a cell. -/
  | value (value : Int)
  /-- The value is stored. -/
  | written
  /-- The cells from address 0 on. -/
  | cells (values : List Int)
  /-- The number of cells. -/
  | count (size : Nat)
  /-- The access fails. -/
  | refused (error : AccessError)
deriving DecidableEq, Repr

/-- The answer to a call, and the memory afterwards. -/
def answer (m : Memory) : Call → Answer × Memory
  | .read a =>
    match m.read a with
    | .ok (v, n) => (.value v, n)
    | .error e => (.refused e, m)
  | .write a v =>
    match m.write a v with
    | .ok n => (.written, n)
    | .error e => (.refused e, m)
  | .peek a => (.value (m.peek a), m)
  | .snapshot => (.cells m.toList, m)
  | .size => (.count m.size, m)

/-- The memory after calls. -/
def after (m : Memory) : List Call → Memory
  | [] => m
  | call :: calls => (m.answer call).2.after calls

/-- Calls with their answers. -/
def exchanges (m : Memory) : List Call → List (Call × Answer)
  | [] => []
  | call :: calls => (call, (m.answer call).1) :: (m.answer call).2.exchanges calls

/-! ## What exchanges tell -/

/-- The address that was read or written in an exchange, unless the access was refused. -/
def accessed? : Call × Answer → Option Int
  | (.read a, .value _) => some a
  | (.write a _, .written) => some a
  | _ => none

/-- The value that was written at the address in an exchange, if one was. -/
def writtenAt? (a : Int) : Call × Answer → Option Int
  | (.write b v, .written) => if b = a then some v else none
  | _ => none

/-- The value at an address after exchanges with a memory that held the words. -/
def valueAfter (words : List Int) (log : List (Call × Answer)) (a : Int) : Int :=
  if a < 0 then 0 else (log.filterMap (writtenAt? a)).getLast?.getD (words.getD a.toNat 0)

/-- The number of cells after exchanges with a memory that held the words. -/
def sizeAfter (words : List Int) (log : List (Call × Answer)) : Nat :=
  ((log.filterMap accessed?).map fun a => a.toNat + 1).foldl max words.length

/-- The answer to an access to `a` of `size` cells that has this answer unless it is refused:
the address must not be negative, nor take more than 2⁶³ - 1 new cells. -/
def unlessRefused (size : Nat) (a : Int) (answer : Answer) : Answer :=
  if a < 0 then .refused (.negative a)
  else if 9223372036854775807 < a + 1 - size then .refused .tooLarge
  else answer

/-- The answer that is due to a call after exchanges with a memory that held the words. -/
def due (words : List Int) (log : List (Call × Answer)) : Call → Answer
  | .read a => unlessRefused (sizeAfter words log) a (.value (valueAfter words log a))
  | .write a _ => unlessRefused (sizeAfter words log) a .written
  | .peek a => .value (valueAfter words log a)
  | .snapshot => .cells ((List.range (sizeAfter words log)).map fun k : Nat =>
      valueAfter words log k)
  | .size => .count (sizeAfter words log)

variable {m : Memory} {a b v : Int} {words : List Int} {log before later : List (Call × Answer)}
  {call : Call} {calls : List Call} {reply : Answer}

theorem valueAfter_append (exchange : Call × Answer) (ha : 0 ≤ a) :
    valueAfter words (log ++ [exchange]) a =
      (writtenAt? a exchange).getD (valueAfter words log a) := by
  have hneg : ¬ a < 0 := Int.not_lt.2 ha
  simp only [valueAfter, if_neg hneg, List.filterMap_append]
  cases h : writtenAt? a exchange <;> simp [h]

theorem sizeAfter_append (exchange : Call × Answer) :
    sizeAfter words (log ++ [exchange]) =
      (accessed? exchange).elim (sizeAfter words log) fun a =>
        max (sizeAfter words log) (a.toNat + 1) := by
  simp only [sizeAfter, List.filterMap_append]
  cases h : accessed? exchange <;> simp [h]

/-! ## One call -/

/-- What a call can come to. -/
inductive Answered (m : Memory) : Call → Answer × Memory → Prop
  | read {a : Int} (h : m.Allows a) :
    Answered m (.read a) (.value (m.peek a), m.growTo (a.toNat + 1))
  | write {a v : Int} (h : m.Allows a) : Answered m (.write a v) (.written, m.put a v)
  | readRefused {a : Int} (h : ¬ m.Allows a) : Answered m (.read a) (.refused (refusal a), m)
  | writeRefused {a v : Int} (h : ¬ m.Allows a) : Answered m (.write a v) (.refused (refusal a), m)
  | peek (a : Int) : Answered m (.peek a) (.value (m.peek a), m)
  | snapshot : Answered m .snapshot (.cells m.toList, m)
  | size : Answered m .size (.count m.size, m)

theorem answered (m : Memory) (call : Call) : Answered m call (m.answer call) := by
  cases call with
  | read a =>
    by_cases h : m.Allows a
    · simp only [answer, read_of_allows h]
      exact .read h
    · simp only [answer, read_of_not_allows h]
      exact .readRefused h
  | write a v =>
    by_cases h : m.Allows a
    · simp only [answer, write_of_allows h]
      exact .write h
    · simp only [answer, write_of_not_allows h]
      exact .writeRefused h
  | peek a => exact .peek a
  | snapshot => exact .snapshot
  | size => exact .size

/-- Only an access that is not refused changes the memory. -/
theorem answer_snd_of_accessed?_eq_none (h : accessed? (call, (m.answer call).1) = none) :
    (m.answer call).2 = m := by
  have hr := m.answered call
  generalize m.answer call = r at h hr ⊢
  cases hr with
  | read => cases h
  | write => cases h
  | readRefused | writeRefused | peek | snapshot | size => rfl

/-- A memory is never cut. -/
theorem size_le_size_answer (m : Memory) (call : Call) : m.size ≤ (m.answer call).2.size := by
  have hr := m.answered call
  generalize m.answer call = r at hr ⊢
  cases hr with
  | read =>
    rw [size_growTo]
    exact Nat.le_max_left ..
  | write =>
    rw [size_put]
    exact Nat.le_max_left ..
  | readRefused | writeRefused | peek | snapshot | size => exact Nat.le_refl _

theorem unlessRefused_of_allows (h : m.Allows a) : unlessRefused m.size a reply = reply := by
  have hneg : ¬ a < 0 := Int.not_lt.2 h.nonneg
  have hfits : ¬ 9223372036854775807 < a + 1 - (m.size : Int) := Int.not_lt.2 h.fits
  rw [unlessRefused, if_neg hneg, if_neg hfits]

theorem unlessRefused_of_not_allows (h : ¬ m.Allows a) :
    unlessRefused m.size a reply = .refused (refusal a) := by
  unfold unlessRefused refusal
  by_cases ha : a < 0
  · rw [if_pos ha, if_pos ha]
  · have hfar : 9223372036854775807 < a + 1 - (m.size : Int) :=
      Int.not_le.1 fun hfits => h ⟨Int.not_lt.1 ha, hfits⟩
    rw [if_neg ha, if_pos hfar, if_neg ha]

/-! ## All calls -/

/-- The memory is what the exchanges have made of one that held the words. -/
structure Reflects (words : List Int) (log : List (Call × Answer)) (m : Memory) : Prop where
  size : m.size = sizeAfter words log
  peek : ∀ a, m.peek a = valueAfter words log a

theorem reflects_ofList (words : List Int) : Reflects words [] (ofList words) where
  size := size_ofList words
  peek a := by
    simp [Memory.peek, ofList, valueAfter]

namespace Reflects

/-- The answer to a call is due. -/
theorem answer_eq (h : Reflects words log m) (call : Call) :
    (m.answer call).1 = due words log call := by
  have hr := m.answered call
  generalize m.answer call = r at hr ⊢
  cases hr with
  | read ha => rw [due, ← h.size, ← h.peek, unlessRefused_of_allows ha]
  | write ha => rw [due, ← h.size, unlessRefused_of_allows ha]
  | readRefused ha => rw [due, ← h.size, unlessRefused_of_not_allows ha]
  | writeRefused ha => rw [due, ← h.size, unlessRefused_of_not_allows ha]
  | peek a => rw [due, ← h.peek]
  | snapshot =>
    rw [due, ← h.size, toList_eq_map_peek]
    simp only [h.peek]
  | size => rw [due, ← h.size]

/-- An exchange that accesses nothing leaves things as they are. -/
theorem of_not_accessed (h : Reflects words log m) (hnot : accessed? (call, reply) = none) :
    Reflects words (log ++ [(call, reply)]) m where
  size := by rw [sizeAfter_append, hnot, h.size, Option.elim_none]
  peek a := by
    rw [h.peek]
    by_cases ha : a < 0
    · simp only [valueAfter, if_pos ha]
    · have hw : writtenAt? a (call, reply) = none := by
        cases call <;> cases reply <;> first | rfl | cases hnot
      rw [valueAfter_append _ (Int.not_lt.1 ha), hw, Option.getD_none]

/-- After one more call the exchanges tell what the memory holds then. -/
theorem next (h : Reflects words log m) (call : Call) :
    Reflects words (log ++ [(call, (m.answer call).1)]) (m.answer call).2 := by
  have hr := m.answered call
  generalize m.answer call = r at hr ⊢
  cases hr with
  | @read a ha =>
    refine ⟨?_, fun b => ?_⟩
    · rw [sizeAfter_append, size_growTo, h.size]
      rfl
    · rw [peek_growTo, h.peek]
      by_cases hb : b < 0
      · simp only [valueAfter, if_pos hb]
      · rw [valueAfter_append _ (Int.not_lt.1 hb)]
        rfl
  | @write a v ha =>
    refine ⟨?_, fun b => ?_⟩
    · rw [sizeAfter_append, size_put, h.size]
      rfl
    · rw [peek_put ha, h.peek]
      by_cases hb : b < 0
      · have hne : b ≠ a := fun hba => Int.not_lt.2 ha.nonneg (hba ▸ hb)
        simp only [valueAfter, if_pos hb, if_neg hne]
      · rw [valueAfter_append _ (Int.not_lt.1 hb), writtenAt?]
        by_cases hba : b = a
        · rw [if_pos hba, if_pos hba.symm, Option.getD_some]
        · rw [if_neg hba, if_neg (Ne.symm hba), Option.getD_none]
  | readRefused | writeRefused | peek | snapshot | size => exact h.of_not_accessed rfl

/-- After any calls they do. -/
theorem after (h : Reflects words log m) (calls : List Call) :
    Reflects words (log ++ m.exchanges calls) (m.after calls) := by
  induction calls generalizing log m with
  | nil => rwa [exchanges, List.append_nil]
  | cons call calls ih =>
    rw [exchanges, List.append_cons]
    exact ih (h.next call)

/-- So each of the answers is due after the exchanges before it. -/
theorem due_of_exchanges (h : Reflects words log m)
    (hlog : m.exchanges calls = before ++ (call, reply) :: later) :
    reply = due words (log ++ before) call := by
  induction before generalizing log m calls with
  | nil =>
    cases calls with
    | nil => cases hlog
    | cons c cs =>
      obtain ⟨hhead, -⟩ := List.cons.inj hlog
      cases hhead
      rw [List.append_nil]
      exact h.answer_eq call
  | cons exchange before ih =>
    cases calls with
    | nil => cases hlog
    | cons c cs =>
      obtain ⟨rfl, hrest⟩ := List.cons.inj hlog
      rw [List.append_cons]
      exact ih (h.next c) hrest

end Reflects

theorem map_fst_exchanges (m : Memory) (calls : List Call) :
    (m.exchanges calls).map Prod.fst = calls := by
  induction calls generalizing m with
  | nil => rfl
  | cons call calls ih => rw [exchanges, List.map_cons, ih]

/-- Whatever calls are made to a memory, each answer is the one that is due after the
exchanges before it. In the end each cell has the value that was last written there, or
else its word, or else 0, and there are as many cells as there were words, or as the
furthest access has needed. No call cuts the memory, and one that is refused, or does not
read or write, leaves it as it is. -/
theorem answers_due (words : List Int) (calls : List Call) :
    let m := (ofList words).after calls
    let log := (ofList words).exchanges calls
    log.map Prod.fst = calls ∧
    (∀ before call reply later, log = before ++ (call, reply) :: later →
      reply = due words before call) ∧
    (∀ a, m.peek a = valueAfter words log a) ∧ m.size = sizeAfter words log ∧
    (∀ call, m.size ≤ (m.answer call).2.size) ∧
    ∀ call, accessed? (call, (m.answer call).1) = none → (m.answer call).2 = m := by
  intro m log
  have h : Reflects words log m := (reflects_ofList words).after calls
  refine ⟨map_fst_exchanges _ _, fun before call reply later hlog => ?_, h.peek, h.size,
    size_le_size_answer m, fun call => answer_snd_of_accessed?_eq_none⟩
  exact (reflects_ofList words).due_of_exchanges hlog

-- A read that grows the memory, and an address that counts from nowhere.
example : (ofList [5]).exchanges [.read 2, .write 1 7, .read (-1), .peek 9, .snapshot] =
    [(.read 2, .value 0), (.write 1 7, .written), (.read (-1), .refused (.negative (-1))),
      (.peek 9, .value 0), (.snapshot, .cells [5, 7, 0])] := by decide +kernel

end Memory

end Wordcode
