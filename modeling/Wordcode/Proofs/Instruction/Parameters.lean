import Wordcode.Fault

/-!
# Which parameters an operation takes from a word

A digit is that of a mode that its parameter can have (`Fits`), or the parameter is
refused for it (`Offence`). The parameters are looked at one after another
(`Opcode.map_withModes`): an operation takes the modes of the digits if they all fit
(`Opcode.withModes_digits_iff`), and otherwise names the first parameter that is
refused (`Opcode.withModes_eq_error_iff`).
-/

namespace Wordcode

variable {α β ε : Type} {N k n : Nat} {d : Nat → Nat} {op : Opcode} {e : Defect}

/-! ## One result after another -/

section

variable {f : Nat → Except ε α} {l : List α} {g : α → β} {result : Nat → β} {error : ε}

theorem mapM_range_of_error (h : (List.range n).mapM f = .error error) :
    (List.range (n + 1)).mapM f = .error error := by
  rw [List.range_succ, List.mapM_append, h]
  rfl

theorem mapM_range_of_ok (h : (List.range n).mapM f = .ok l) :
    (List.range (n + 1)).mapM f = (f n).map (l ++ [·]) := by
  rw [List.range_succ, List.mapM_append, h]
  cases hf : f n with
  | error e => simp [hf, bind, Except.bind, Except.map]
  | ok a => simp [hf, bind, Except.bind, Except.map, pure, Except.pure]

/-- All succeed, or one is the first that fails. -/
theorem mapM_range_cases (f : Nat → Except ε α) (n : Nat) :
    (∃ l, (List.range n).mapM f = .ok l ∧ l.length = n ∧
      ∀ k a, l[k]? = some a → f k = .ok a) ∨
    ∃ k error, k < n ∧ (List.range n).mapM f = .error error ∧ f k = .error error ∧
      ∀ j < k, ∃ a, f j = .ok a := by
  induction n with
  | zero => exact .inl ⟨[], rfl, rfl, nofun⟩
  | succ n ih =>
    rcases ih with ⟨l, hl, hlen, hf⟩ | ⟨k, error, hk, hm, hf, hbefore⟩
    · cases hn : f n with
      | error error =>
        refine .inr ⟨n, error, Nat.lt_succ_self n, ?_, hn, fun j hj => ?_⟩
        · rw [mapM_range_of_ok hl, hn]
          rfl
        · exact ⟨_, hf j _ (List.getElem?_eq_getElem (hlen.symm ▸ hj))⟩
      | ok a =>
        refine .inl ⟨l ++ [a], ?_, by rw [List.length_append, hlen]; rfl, fun k b hk => ?_⟩
        · rw [mapM_range_of_ok hl, hn]
          rfl
        · rw [List.getElem?_append] at hk
          split at hk
          · exact hf k b hk
          · have hkn : k = n := by
              have hlt := (List.getElem?_eq_some_iff.1 hk).1
              rw [List.length_singleton] at hlt
              omega
            subst hkn
            rw [hlen, Nat.sub_self] at hk
            cases hk
            exact hn
    · exact .inr ⟨k, error, Nat.lt_succ_of_lt hk, mapM_range_of_error hm, hf, hbefore⟩

theorem eq_map_range_iff {r : List β} (hr : r.length = n) :
    r = (List.range n).map result ↔ ∀ k < n, r[k]? = some (result k) := by
  constructor
  · rintro rfl k hk
    rw [List.getElem?_map, List.getElem?_range hk, Option.map_some]
  · intro h
    refine List.ext_getElem (by simp [hr]) fun k hk _ => ?_
    have hget := h k (hr ▸ hk)
    rw [List.getElem?_eq_getElem hk] at hget
    simpa using hget

/-- All succeed, with the given results. -/
theorem exists_mapM_range_iff :
    (∃ l, (List.range n).mapM f = .ok l ∧ l.map g = (List.range n).map result) ↔
      ∀ k < n, ∃ a, f k = .ok a ∧ g a = result k := by
  rcases mapM_range_cases f n with ⟨l, hl, hlen, hf⟩ | ⟨k, error, hk, hm, hfk, -⟩
  · have hmap : l.map g = (List.range n).map result ↔ ∀ k < n, l[k]?.map g = some (result k) := by
      simpa only [List.getElem?_map] using eq_map_range_iff ((List.length_map g).trans hlen)
    constructor
    · rintro ⟨l', hl', hg⟩ k hk
      cases hl.symm.trans hl'
      obtain ⟨a, ha, hga⟩ := Option.map_eq_some_iff.1 (hmap.1 hg k hk)
      exact ⟨a, hf k a ha, hga⟩
    · intro h
      refine ⟨l, hl, hmap.2 fun k hk => ?_⟩
      obtain ⟨a, ha, hga⟩ := h k hk
      have hget : l[k]? = some l[k] := List.getElem?_eq_getElem (hlen.symm ▸ hk)
      cases (hf k _ hget).symm.trans ha
      rw [hget, Option.map_some, hga]
  · constructor
    · rintro ⟨l, hl, -⟩
      cases hm.symm.trans hl
    · intro h
      obtain ⟨a, ha, -⟩ := h k hk
      cases hfk.symm.trans ha

/-- The first that fails is the result. -/
theorem mapM_range_eq_error_iff :
    (List.range n).mapM f = .error error ↔
      ∃ k < n, f k = .error error ∧ ∀ j < k, ∃ a, f j = .ok a := by
  rcases mapM_range_cases f n with ⟨l, hl, hlen, hf⟩ | ⟨k, error', hk, hm, hfk, hbefore⟩
  · constructor
    · intro h
      cases hl.symm.trans h
    · rintro ⟨k, hk, hfk, -⟩
      cases (hf k _ (List.getElem?_eq_getElem (hlen.symm ▸ hk))).symm.trans hfk
  · constructor
    · intro h
      cases hm.symm.trans h
      exact ⟨k, hk, hfk, hbefore⟩
    · rintro ⟨j, -, hfj, hbefore'⟩
      rcases Nat.lt_trichotomy j k with hjk | rfl | hkj
      · obtain ⟨a, ha⟩ := hbefore j hjk
        cases ha.symm.trans hfj
      · cases hfk.symm.trans hfj
        exact hm
      · obtain ⟨a, ha⟩ := hbefore' k hkj
        cases ha.symm.trans hfk

end

/-! ## Parameters -/

/-- The mode of a parameter of an operation. -/
def Opcode.parameterMode (op : Opcode) (word k : Nat) : Except Defect Mode :=
  if k ∈ op.destinations then (destinationMode word k).map Destination.mode
  else sourceMode word k

/-- What is wrong with a digit as that of the parameter `k`. -/
inductive Offence (op : Opcode) (k digit : Nat) : Defect → Prop
  | mode (h : 2 < digit) : Offence op k digit (.unknownMode digit k)
  | destination (h : digit = 1) (hk : k ∈ op.destinations) :
    Offence op k digit (.immediateDestination k)

/-- A digit stands for a mode that the parameter `k` can have. -/
def Fits (op : Opcode) (k digit : Nat) : Prop := digit ≤ 2 ∧ (k ∈ op.destinations → digit ≠ 1)

theorem Fits.not_offence (h : Fits op k n) : ¬ Offence op k n e := by
  rintro (h2 | ⟨h1, hk⟩)
  · exact absurd h.1 (by omega)
  · exact h.2 hk h1

theorem Fits.lt_ten (h : Fits op k n) : n < 10 := Nat.lt_of_le_of_lt h.1 (by decide)

theorem Offence.unique {e' : Defect} (h : Offence op k n e) (h' : Offence op k n e') : e = e' := by
  cases h with
  | mode h =>
    cases h' with
    | mode => rfl
    | destination h' => omega
  | destination h =>
    cases h' with
    | mode h' => omega
    | destination => rfl

theorem Mode.digit_le (mode : Mode) : mode.digit ≤ 2 := by
  cases mode <;> decide

theorem Mode.exists_of_digit_le (h : n ≤ 2) : ∃ mode : Mode, mode.digit = n := by
  obtain rfl | rfl | rfl : n = 0 ∨ n = 1 ∨ n = 2 := by omega
  · exact ⟨.position, rfl⟩
  · exact ⟨.immediate, rfl⟩
  · exact ⟨.relative, rfl⟩

theorem Destination.digit_ne_one (result : Destination) : result.mode.digit ≠ 1 := by
  cases result <;> decide

theorem Destination.exists_of_ne {mode : Mode} (h : mode ≠ .immediate) :
    ∃ result : Destination, result.mode = mode := by
  cases mode with
  | position => exact ⟨.position, rfl⟩
  | immediate => exact absurd rfl h
  | relative => exact ⟨.relative, rfl⟩

theorem sourceMode_of_digit {mode : Mode} (h : modeDigit N k = mode.digit) :
    sourceMode N k = .ok mode := by
  simp only [sourceMode, h, Mode.ofDigit?_digit]

theorem destinationMode_of_digit {result : Destination}
    (h : modeDigit N k = result.mode.digit) : destinationMode N k = .ok result := by
  rw [destinationMode, sourceMode_of_digit h]
  cases result <;> rfl

theorem sourceMode_of_lt (h : 2 < modeDigit N k) :
    sourceMode N k = .error (.unknownMode (modeDigit N k) k) := by
  have hnone : Mode.ofDigit? (modeDigit N k) = none := by
    cases hm : Mode.ofDigit? (modeDigit N k) with
    | none => rfl
    | some mode =>
      have hle := mode.digit_le
      rw [← Mode.ofDigit?_eq_some_iff.1 hm] at hle
      omega
  simp only [sourceMode, hnone]

/-- A parameter has the mode of its digit, or the digit is refused. -/
theorem Opcode.parameterMode_cases (op : Opcode) (N k : Nat) :
    (∃ mode : Mode, mode.digit = modeDigit N k ∧ Fits op k (modeDigit N k) ∧
      op.parameterMode N k = .ok mode) ∨
    ∃ e, Offence op k (modeDigit N k) e ∧ op.parameterMode N k = .error e := by
  by_cases hlt : 2 < modeDigit N k
  · refine .inr ⟨_, .mode hlt, ?_⟩
    unfold parameterMode
    split
    · simp only [destinationMode, sourceMode_of_lt hlt, Except.map]
    · exact sourceMode_of_lt hlt
  · have hle : modeDigit N k ≤ 2 := Nat.not_lt.1 hlt
    obtain ⟨mode, hmode⟩ := Mode.exists_of_digit_le hle
    have hs := sourceMode_of_digit hmode.symm
    by_cases hk : k ∈ op.destinations
    · by_cases himmediate : mode = .immediate
      · subst himmediate
        refine .inr ⟨_, .destination hmode.symm hk, ?_⟩
        simp only [parameterMode, if_pos hk, destinationMode, hs, Except.map]
      · obtain ⟨result, rfl⟩ := Destination.exists_of_ne himmediate
        refine .inl ⟨_, hmode, ⟨hle, fun _ => hmode ▸ result.digit_ne_one⟩, ?_⟩
        simp only [parameterMode, if_pos hk, destinationMode_of_digit hmode.symm, Except.map]
    · refine .inl ⟨mode, hmode, ⟨hle, fun h => absurd h hk⟩, ?_⟩
      rw [parameterMode, if_neg hk, hs]

theorem Opcode.parameterMode_eq_error_iff :
    op.parameterMode N k = .error e ↔ Offence op k (modeDigit N k) e := by
  rcases op.parameterMode_cases N k with ⟨mode, -, hfits, hm⟩ | ⟨e', he', hm⟩
  · rw [hm]
    exact ⟨nofun, fun h => absurd h hfits.not_offence⟩
  · rw [hm]
    constructor
    · intro h
      cases h
      exact he'
    · intro h
      rw [h.unique he']

theorem Opcode.exists_parameterMode_iff :
    (∃ mode, op.parameterMode N k = .ok mode) ↔ ∀ e, ¬ Offence op k (modeDigit N k) e := by
  simp only [← parameterMode_eq_error_iff]
  cases op.parameterMode N k with
  | error e => exact ⟨fun ⟨_, h⟩ => (nomatch h), fun h => absurd rfl (h e)⟩
  | ok mode => exact ⟨fun _ _ => nofun, fun _ => ⟨mode, rfl⟩⟩

/-! ## Operations -/

/-- An instruction has the operation that was asked for, and its modes are found
one after another. -/
theorem Opcode.map_withModes (op : Opcode) (N : Nat) :
    (op.withModes N).map (fun i => (i.opcode, i.modes)) =
      ((List.range op.arity).mapM (op.parameterMode N)).map (op, ·) := by
  have hrange : List.range 1 = [0] ∧ List.range 2 = [0, 1] ∧ List.range 3 = [0, 1, 2] := by decide
  cases op with
  | compute operation =>
    simp only [arity, hrange, List.mapM_cons, List.mapM_nil, parameterMode, destinations, withModes]
    cases sourceMode N 0 <;> cases sourceMode N 1 <;> cases destinationMode N 2 <;> rfl
  | input =>
    simp only [arity, hrange, List.mapM_cons, List.mapM_nil, parameterMode, destinations, withModes]
    cases destinationMode N 0 <;> rfl
  | output =>
    simp only [arity, hrange, List.mapM_cons, List.mapM_nil, parameterMode, destinations, withModes]
    cases sourceMode N 0 <;> rfl
  | jump condition =>
    simp only [arity, hrange, List.mapM_cons, List.mapM_nil, parameterMode, destinations, withModes]
    cases sourceMode N 0 <;> cases sourceMode N 1 <;> rfl
  | adjustBase =>
    simp only [arity, hrange, List.mapM_cons, List.mapM_nil, parameterMode, destinations, withModes]
    cases sourceMode N 0 <;> rfl
  | halt => rfl

theorem Opcode.withModes_cases (op : Opcode) (N : Nat) :
    (∃ i : Instruction, op.withModes N = .ok i ∧ i.opcode = op ∧
      (List.range op.arity).mapM (op.parameterMode N) = .ok i.modes) ∨
    ∃ e, op.withModes N = .error e ∧
      (List.range op.arity).mapM (op.parameterMode N) = .error e := by
  have hmap := op.map_withModes N
  cases hi : op.withModes N with
  | error e =>
    cases hm : (List.range op.arity).mapM (op.parameterMode N) with
    | error e' =>
      rw [hi, hm] at hmap
      cases hmap
      exact .inr ⟨e, rfl, rfl⟩
    | ok modes =>
      rw [hi, hm] at hmap
      cases hmap
  | ok i =>
    cases hm : (List.range op.arity).mapM (op.parameterMode N) with
    | error e' =>
      rw [hi, hm] at hmap
      cases hmap
    | ok modes =>
      rw [hi, hm] at hmap
      obtain ⟨hop, hmodes⟩ := Prod.mk.inj (Except.ok.inj hmap)
      exact .inl ⟨i, rfl, hop, by rw [hmodes]⟩

theorem Opcode.opcode_of_withModes {i : Instruction} (h : op.withModes N = .ok i) :
    i.opcode = op := by
  rcases op.withModes_cases N with ⟨j, hj, hop, -⟩ | ⟨e, he, -⟩
  · cases hj.symm.trans h
    exact hop
  · cases he.symm.trans h

/-- Which modes an operation takes from a word. -/
theorem Opcode.withModes_digits_iff :
    (∃ i, op.withModes N = .ok i ∧ i.modes.map Mode.digit = (List.range op.arity).map d) ↔
      ∀ k < op.arity, modeDigit N k = d k ∧ Fits op k (d k) := by
  have hmodes : (∃ i, op.withModes N = .ok i ∧
        i.modes.map Mode.digit = (List.range op.arity).map d) ↔
      ∃ modes, (List.range op.arity).mapM (op.parameterMode N) = .ok modes ∧
        modes.map Mode.digit = (List.range op.arity).map d := by
    rcases op.withModes_cases N with ⟨i, hi, -, hm⟩ | ⟨e, he, hm⟩
    · simp only [hi, hm, Except.ok.injEq, exists_eq_left']
    · simp only [he, hm, reduceCtorEq, false_and, exists_false]
  rw [hmodes, exists_mapM_range_iff]
  refine forall₂_congr fun k _ => ?_
  rcases op.parameterMode_cases N k with ⟨mode, hmode, hfits, hm⟩ | ⟨e, he, hm⟩
  · rw [hm]
    constructor
    · rintro ⟨mode', hmode', hd⟩
      cases hmode'
      rw [← hd, hmode]
      exact ⟨rfl, hfits⟩
    · rintro ⟨hd, -⟩
      exact ⟨mode, rfl, hmode.trans hd⟩
  · rw [hm]
    constructor
    · rintro ⟨mode, hmode, -⟩
      cases hmode
    · rintro ⟨hd, hfits⟩
      rw [hd] at he
      exact absurd he hfits.not_offence

/-- Which parameter an operation refuses a word for. -/
theorem Opcode.withModes_eq_error_iff :
    op.withModes N = .error e ↔ ∃ k < op.arity, Offence op k (modeDigit N k) e ∧
      ∀ j < k, ∀ e', ¬ Offence op j (modeDigit N j) e' := by
  have hmodes : op.withModes N = .error e ↔
      (List.range op.arity).mapM (op.parameterMode N) = .error e := by
    rcases op.withModes_cases N with ⟨i, hi, -, hm⟩ | ⟨e, he, hm⟩
    · simp only [hi, hm, reduceCtorEq]
    · simp only [he, hm, Except.error.injEq]
  rw [hmodes, mapM_range_eq_error_iff]
  simp only [parameterMode_eq_error_iff, exists_parameterMode_iff]

end Wordcode
