import Mathlib.Algebra.BigOperators.Intervals
import Mathlib.Algebra.BigOperators.Ring.Finset
import Mathlib.Tactic.Ring
import Wordcode.Proofs.Instruction.Parameters

/-!
# Which words are instructions

A word stands for an operation with given mode digits iff it is the number of the
operation in its two low digits, the mode digits above them, and anything above
those (`word_digits_iff`), and each digit fits its parameter. So there is just one
instruction for such a word, and every instruction is that of the words that are
written for it (`decodeAt_encode`).

Any other word is refused for the first thing that is wrong with it
(`FirstDefect`). Both together are `decodes_legal_words`.
-/

namespace Wordcode

open Finset (range)

variable {N k n : Nat} {d : Nat → Nat} {op : Opcode} {e : Defect}

/-! ## Digits -/

theorem sum_digits_lt (hd : ∀ k < n, d k < 10) : ∑ k ∈ range n, d k * 10 ^ k < 10 ^ n := by
  induction n with
  | zero => exact Nat.one_pos
  | succ n ih =>
    have hsum := ih fun k hk => hd k (by omega)
    have hlast : d n * 10 ^ n ≤ 9 * 10 ^ n := Nat.mul_le_mul_right _ (by have := hd n; omega)
    rw [Finset.sum_range_succ, Nat.pow_succ]
    omega

/-- The first digits of a number are given iff it is their sum, but for a multiple of the
power behind them. -/
theorem digits_iff (hd : ∀ k < n, d k < 10) :
    (∀ k < n, N / 10 ^ k % 10 = d k) ↔
      ∃ rest, N = ∑ k ∈ range n, d k * 10 ^ k + rest * 10 ^ n := by
  induction n with
  | zero => simp
  | succ n ih =>
    have hlt := sum_digits_lt fun k (hk : k < n) => hd k (by omega)
    have hpos : 0 < 10 ^ n := Nat.pow_pos (by decide)
    have hdiv (rest : Nat) :
        (∑ k ∈ range n, d k * 10 ^ k + rest * 10 ^ n) / 10 ^ n = rest := by
      rw [Nat.add_mul_div_right _ _ hpos, Nat.div_eq_of_lt hlt, Nat.zero_add]
    rw [Nat.forall_lt_succ_right, ih fun k hk => hd k (by omega)]
    constructor
    · rintro ⟨⟨rest, rfl⟩, hn⟩
      rw [hdiv] at hn
      refine ⟨rest / 10, ?_⟩
      have hrest : rest = d n + 10 * (rest / 10) := by omega
      rw [Finset.sum_range_succ, Nat.pow_succ]
      conv_lhs => rw [hrest]
      ring
    · rintro ⟨rest, rfl⟩
      have hshift : ∑ k ∈ range (n + 1), d k * 10 ^ k + rest * 10 ^ (n + 1) =
          ∑ k ∈ range n, d k * 10 ^ k + (d n + 10 * rest) * 10 ^ n := by
        rw [Finset.sum_range_succ]
        ring
      rw [hshift]
      refine ⟨⟨_, rfl⟩, ?_⟩
      rw [hdiv]
      have := hd n (by omega)
      omega

/-! ## Words -/

theorem Opcode.code_injective : Function.Injective Opcode.code := by
  intro a b h
  exact Option.some.inj ((ofCode?_code a).symm.trans (h ▸ ofCode?_code b))

theorem Opcode.code_lt (op : Opcode) : op.code < 100 := by
  rcases op with (_ | _ | _ | _) | _ | _ | (_ | _) | _ | _ <;> decide

theorem word_eq (op : Opcode) (d : Nat → Nat) (rest : Nat) :
    op.code + ∑ k ∈ range op.arity, d k * 10 ^ (k + 2) + rest * 10 ^ (op.arity + 2) =
      op.code + 100 * (∑ k ∈ range op.arity, d k * 10 ^ k + rest * 10 ^ op.arity) := by
  have hshift : ∑ k ∈ range op.arity, d k * 10 ^ (k + 2) =
      100 * ∑ k ∈ range op.arity, d k * 10 ^ k := by
    rw [Finset.mul_sum]
    exact Finset.sum_congr rfl fun k _ => by ring
  rw [hshift]
  ring

/-- The two low digits of a word and its mode digits are given iff it is their
sum, but for what stands above. -/
theorem word_digits_iff (hd : ∀ k < op.arity, d k < 10) :
    (N % 100 = op.code ∧ ∀ k < op.arity, modeDigit N k = d k) ↔
      ∃ rest, N = op.code + ∑ k ∈ range op.arity, d k * 10 ^ (k + 2) +
        rest * 10 ^ (op.arity + 2) := by
  have hcode := op.code_lt
  have hmode (k : Nat) : modeDigit N k = N / 100 / 10 ^ k % 10 := by
    rw [modeDigit, Nat.div_div_eq_div_mul, Nat.pow_eq, Nat.pow_add, Nat.mul_comm]
  simp only [hmode, digits_iff hd, word_eq]
  constructor
  · rintro ⟨hlow, rest, hrest⟩
    exact ⟨rest, by omega⟩
  · rintro ⟨rest, hrest⟩
    exact ⟨by omega, rest, by omega⟩

theorem decode_natCast_eq_ok_iff {i : Instruction} :
    decode (N : Int) = .ok i ↔ N % 100 = i.opcode.code ∧ i.opcode.withModes N = .ok i := by
  have hN : ¬ (N : Int) < 0 := by omega
  rw [decode, if_neg hN, Int.toNat_natCast]
  cases ho : Opcode.ofCode? (N % 100) with
  | none =>
    refine ⟨nofun, fun h => ?_⟩
    rw [h.1, Opcode.ofCode?_code] at ho
    cases ho
  | some op =>
    have hcode := Opcode.ofCode?_eq_some_iff.1 ho
    constructor
    · intro h
      obtain rfl := Opcode.opcode_of_withModes h
      exact ⟨hcode, h⟩
    · rintro ⟨hi, h⟩
      cases Opcode.code_injective (hcode.symm.trans hi)
      exact h

/-- The first thing that is wrong with a word that is no instruction: its sign, then
its operation, then the first of its parameters that is refused. -/
inductive FirstDefect (word : Int) : Defect → Prop
  | negativeWord (h : word < 0) : FirstDefect word .negativeWord
  | unknownOperation (h : 0 ≤ word) (ho : ∀ op : Opcode, (op.code : Int) ≠ word % 100) :
    FirstDefect word .unknownOperation
  | parameter {op : Opcode} {digit : Nat → Nat} {k : Nat} {defect : Defect} (h : 0 ≤ word)
    (ho : (op.code : Int) = word % 100)
    (hd : ∀ j, (digit j : Int) = word / 10 ^ (j + 2) % 10) (hk : k < op.arity)
    (hdefect : Offence op k (digit k) defect)
    (hbefore : ∀ j < k, ∀ other, ¬ Offence op j (digit j) other) : FirstDefect word defect

theorem ofCode?_eq_none_iff : Opcode.ofCode? n = none ↔ ∀ op : Opcode, op.code ≠ n := by
  rw [Option.eq_none_iff_forall_ne_some]
  exact forall_congr' fun op => not_congr (Opcode.ofCode?_eq_some_iff.trans eq_comm)

theorem natCast_modeDigit : (modeDigit N k : Int) = (N : Int) / 10 ^ (k + 2) % 10 := by
  rw [modeDigit]
  push_cast
  rfl

theorem decode_eq_error_iff {word : Int} : decode word = .error e ↔ FirstDefect word e := by
  by_cases hneg : word < 0
  · rw [decode, if_pos hneg]
    constructor
    · intro h
      cases h
      exact .negativeWord hneg
    · intro h
      cases h with
      | negativeWord => rfl
      | unknownOperation h => omega
      | parameter h => omega
  have hpos : 0 ≤ word := Int.not_lt.1 hneg
  obtain ⟨N, rfl⟩ := Int.eq_ofNat_of_zero_le hpos
  rw [decode, if_neg hneg, Int.toNat_natCast]
  cases ho : Opcode.ofCode? (N % 100) with
  | none =>
    have hnone := ofCode?_eq_none_iff.1 ho
    constructor
    · intro h
      cases h
      exact .unknownOperation hpos fun op hop => hnone op (by omega)
    · intro h
      cases h with
      | negativeWord h => exact absurd h hneg
      | unknownOperation => rfl
      | @parameter op _ _ _ _ hop => exact absurd (by omega) (hnone op)
  | some op =>
    have hcode := Opcode.ofCode?_eq_some_iff.1 ho
    show op.withModes N = .error e ↔ _
    rw [Opcode.withModes_eq_error_iff]
    constructor
    · rintro ⟨k, hk, hoff, hbefore⟩
      exact .parameter hpos (by omega) (fun _ => natCast_modeDigit) hk hoff hbefore
    · intro h
      cases h with
      | negativeWord h => exact absurd h hneg
      | unknownOperation _ hop => exact absurd (by omega) (hop op)
      | @parameter op' digit k _ _ hop hd hk hoff hbefore =>
        have hcode' : op'.code = op.code := by omega
        cases Opcode.code_injective hcode'
        have hdigit : digit = modeDigit N := funext fun j => by
          have hj := (hd j).trans natCast_modeDigit.symm
          omega
        subst hdigit
        exact ⟨k, hk, hoff, hbefore⟩

theorem decodeAt_eq_ok_iff {word address : Int} {i : Instruction} :
    decodeAt word address = .ok i ↔ decode word = .ok i := by
  rw [decodeAt]
  cases decode word with
  | error e => exact ⟨nofun, nofun⟩
  | ok j => simp only [Except.mapError, Except.ok.injEq]

/-- The fault of executing a word tells the word, its address, and what is wrong
with it first. -/
theorem decodeAt_eq_error_iff {word address : Int} {fault : Fault} :
    decodeAt word address = .error fault ↔
      ∃ defect, fault = .badInstruction word address defect ∧ FirstDefect word defect := by
  simp only [← decode_eq_error_iff]
  rw [decodeAt]
  cases decode word with
  | error e =>
    constructor
    · intro h
      cases h
      exact ⟨e, rfl, rfl⟩
    · rintro ⟨e', rfl, h⟩
      cases h
      rfl
  | ok i => exact ⟨nofun, fun ⟨_, _, h⟩ => (nomatch h)⟩

-- Both the first and the last parameter are wrong.
example : decodeAt 11901 17 = .error (.badInstruction 11901 17 (.unknownMode 9 0)) := by decide

/-- Which words stand for an operation with given mode digits. -/
theorem exists_decodeAt_iff {word address : Int} :
    (∃ i, decodeAt word address = .ok i ∧ i.opcode = op ∧
      i.modes.map Mode.digit = (List.range op.arity).map d) ↔
    (∃ rest : Nat, word = (op.code + ∑ k ∈ range op.arity, d k * 10 ^ (k + 2) +
      rest * 10 ^ (op.arity + 2) : Nat)) ∧ ∀ k < op.arity, Fits op k (d k) := by
  simp only [decodeAt_eq_ok_iff]
  by_cases hneg : word < 0
  · rw [decode, if_pos hneg]
    exact ⟨fun ⟨_, h, _⟩ => (nomatch h), fun ⟨⟨rest, h⟩, _⟩ => by omega⟩
  obtain ⟨N, rfl⟩ := Int.eq_ofNat_of_zero_le (Int.not_lt.1 hneg)
  have hmodes : (∃ i, decode (N : Int) = .ok i ∧ i.opcode = op ∧
        i.modes.map Mode.digit = (List.range op.arity).map d) ↔
      N % 100 = op.code ∧ ∃ i, op.withModes N = .ok i ∧
        i.modes.map Mode.digit = (List.range op.arity).map d := by
    simp only [decode_natCast_eq_ok_iff]
    constructor
    · rintro ⟨i, ⟨hcode, hi⟩, rfl, hd⟩
      exact ⟨hcode, i, hi, hd⟩
    · rintro ⟨hcode, i, hi, hd⟩
      obtain rfl := Opcode.opcode_of_withModes hi
      exact ⟨i, ⟨hcode, hi⟩, rfl, hd⟩
  simp only [hmodes, Opcode.withModes_digits_iff, Nat.cast_inj]
  constructor
  · rintro ⟨hcode, h⟩
    have hfits : ∀ k < op.arity, Fits op k (d k) := fun k hk => (h k hk).2
    exact ⟨(word_digits_iff fun k hk => (hfits k hk).lt_ten).1
      ⟨hcode, fun k hk => (h k hk).1⟩, hfits⟩
  · rintro ⟨hword, hfits⟩
    obtain ⟨hcode, h⟩ := (word_digits_iff fun k hk => (hfits k hk).lt_ten).2 hword
    exact ⟨hcode, fun k hk => ⟨h k hk, hfits k hk⟩⟩

/-! ## Instructions -/

theorem Mode.digit_injective : Function.Injective Mode.digit := fun a b h =>
  Option.some.inj ((ofDigit?_digit a).symm.trans (h ▸ ofDigit?_digit b))

theorem Destination.mode_injective : Function.Injective Destination.mode := by
  intro a b h
  cases a <;> cases b <;> first | rfl | cases h

/-- Operation and modes make the instruction. -/
theorem Instruction.injective_digits :
    Function.Injective fun i : Instruction => (i.opcode, i.modes.map Mode.digit) := by
  intro i j h
  obtain ⟨ho, hd⟩ := Prod.mk.inj h
  have hm : i.modes = j.modes := List.map_injective_iff.2 Mode.digit_injective hd
  cases i <;> cases j <;>
    simp_all [opcode, modes, Destination.mode_injective.eq_iff]

theorem Instruction.fits (i : Instruction) :
    ∀ k < i.opcode.arity, Fits i.opcode k ((i.modes.map Mode.digit).getD k 0) := by
  intro k hk
  have hread (mode : Mode) (h : k ∉ i.opcode.destinations) : Fits i.opcode k mode.digit :=
    ⟨mode.digit_le, fun hmem => absurd hmem h⟩
  have hwritten (result : Destination) : Fits i.opcode k result.mode.digit :=
    ⟨result.mode.digit_le, fun _ => result.digit_ne_one⟩
  cases i with
  | compute operation left right result =>
    obtain rfl | rfl | rfl : k = 0 ∨ k = 1 ∨ k = 2 := by
      have hk' : k < 3 := hk
      omega
    · exact hread left (by simp [opcode, Opcode.destinations])
    · exact hread right (by simp [opcode, Opcode.destinations])
    · exact hwritten result
  | input result =>
    obtain rfl := Nat.lt_one_iff.1 hk
    exact hwritten result
  | output source =>
    obtain rfl := Nat.lt_one_iff.1 hk
    exact hread source List.not_mem_nil
  | jump condition test goal =>
    obtain rfl | rfl : k = 0 ∨ k = 1 := by
      have hk' : k < 2 := hk
      omega
    · exact hread test List.not_mem_nil
    · exact hread goal List.not_mem_nil
  | adjustBase source =>
    obtain rfl := Nat.lt_one_iff.1 hk
    exact hread source List.not_mem_nil
  | halt => exact absurd hk (Nat.not_lt_zero k)

theorem modeNumber_eq_sum (modes : List Mode) : modeNumber modes =
    ∑ k ∈ range modes.length, (modes.map Mode.digit).getD k 0 * 10 ^ k := by
  induction modes with
  | nil => rfl
  | cons mode modes ih =>
    have hrest : ∀ k, ((mode :: modes).map Mode.digit).getD (k + 1) 0 * 10 ^ (k + 1) =
        10 * ((modes.map Mode.digit).getD k 0 * 10 ^ k) := by
      intro k
      rw [List.map_cons, List.getD_cons_succ]
      ring
    rw [modeNumber, ih, List.length_cons, Finset.sum_range_succ', Finset.mul_sum,
      Finset.sum_congr rfl fun k _ => hrest k, Nat.add_comm]
    simp

theorem Instruction.encode_eq (i : Instruction) (rest : Nat) : i.encode rest =
    i.opcode.code + ∑ k ∈ range i.opcode.arity, (i.modes.map Mode.digit).getD k 0 * 10 ^ (k + 2) +
      rest * 10 ^ (i.opcode.arity + 2) := by
  rw [word_eq, encode, modeNumber_eq_sum, length_modes, Nat.pow_eq, Nat.mul_comm rest]

theorem decodeAt_encode (i : Instruction) (rest : Nat) (address : Int) :
    decodeAt (i.encode rest) address = .ok i := by
  have hdigits : i.modes.map Mode.digit =
      (List.range i.opcode.arity).map fun k => (i.modes.map Mode.digit).getD k 0 := by
    have hlen : (i.modes.map Mode.digit).length = i.opcode.arity := by
      rw [List.length_map, Instruction.length_modes]
    refine (eq_map_range_iff hlen).2 fun k hk => ?_
    rw [List.getD_eq_getElem?_getD, List.getElem?_eq_getElem (hlen.symm ▸ hk), Option.getD_some]
  have hword : (i.encode rest : Int) = _ := congrArg Nat.cast (i.encode_eq rest)
  obtain ⟨j, hj, hop, hd⟩ := exists_decodeAt_iff.2 ⟨⟨rest, hword⟩, i.fits⟩
  have hji : j = i := Instruction.injective_digits (Prod.ext hop (hd.trans hdigits.symm))
  rwa [hji] at hj

/-- A word is decoded to an operation and mode digits iff it is written with them
and each of them is legal, whatever stands above. They make the instruction, so
that decoding undoes encoding. Any other word is a fault that tells the word, the
address, and the first defect. -/
theorem decodes_legal_words (word address : Int) :
    (∀ (op : Opcode) (digit : Nat → Nat),
      (∃ i, decodeAt word address = .ok i ∧ i.opcode = op ∧
        i.modes.map Mode.digit = (List.range op.arity).map digit) ↔
      (∃ rest : Nat, word = (op.code + ∑ k ∈ range op.arity, digit k * 10 ^ (k + 2) +
        rest * 10 ^ (op.arity + 2) : Nat)) ∧
      ∀ k < op.arity, digit k ≤ 2 ∧ (k ∈ op.destinations → digit k ≠ 1)) ∧
    (Function.Injective fun i : Instruction => (i.opcode, i.modes.map Mode.digit)) ∧
    (∀ (i : Instruction) (rest : Nat), decodeAt (i.encode rest) address = .ok i) ∧
    (∀ fault, decodeAt word address = .error fault ↔
      ∃ defect, fault = .badInstruction word address defect ∧ FirstDefect word defect) ∧
    Defect.negativeWord.reason? = some "negative instruction word" ∧
    Defect.unknownOperation.reason? = none ∧
    ∀ digit k, (Defect.unknownMode digit k).reason? = some s!"mode {digit} for parameter {k}" ∧
      (Defect.immediateDestination k).reason? =
        some s!"immediate mode for write parameter {k}" :=
  ⟨fun _ _ => exists_decodeAt_iff, Instruction.injective_digits,
    fun i rest => decodeAt_encode i rest address, fun _ => decodeAt_eq_error_iff, rfl, rfl,
    fun _ _ => ⟨rfl, rfl⟩⟩

end Wordcode
