import Wordcode.Proofs.Program.Language

/-!
# Written programs

The text of a number is a numeral of as many digits (`denotes_toString`), and that
stands for the number (`number_ofInt`). A written program has one such text for each
word and a comma between any two of them, so it is read as just those words, however
many and however long they are (`read_of_write`).

Reading therefore undoes writing. Writing does not undo reading, since a text may
hold blanks, signs, zeros and a last comma that play no part; but it leads to a
normal form of the text, which is read alike and is written as itself
(`read_write`). A host that limits digits writes what it has read: the number that a
numeral stands for has no more digits than the numeral (`digitCount_number_le`).
-/

namespace Wordcode

namespace Numeral

variable {text : List Char} {numeral : Numeral}

/-- The numeral that a number is written as. -/
def ofInt (n : Int) : Numeral := ⟨n < 0, Nat.toDigits 10 n.natAbs⟩

theorem digits_toDigits (n : Nat) : Digits (Nat.toDigits 10 n) :=
  ⟨Nat.toDigits_ne_nil, fun _ hc => Nat.isDigit_of_mem_toDigits (by decide) (by decide) hc⟩

theorem decimal_toDigits (n : Nat) : decimal (Nat.toDigits 10 n) = n := by
  rw [← ofDigitChars_eq_decimal, Nat.ofDigitChars_ten_toDigits]

theorem ofInt_of_nonneg {n : Int} (h : 0 ≤ n) : ofInt n = ⟨false, Nat.toDigits 10 n.toNat⟩ := by
  have habs : n.natAbs = n.toNat := by omega
  rw [ofInt, habs, decide_eq_false (Int.not_lt.2 h)]

theorem ofInt_of_neg {n : Int} (h : n < 0) : ofInt n = ⟨true, Nat.toDigits 10 (-n).toNat⟩ := by
  have habs : n.natAbs = (-n).toNat := by omega
  rw [ofInt, habs, decide_eq_true h]

theorem number_ofInt (n : Int) : (ofInt n).number = n := by
  by_cases h : 0 ≤ n
  · rw [ofInt_of_nonneg h, number, if_neg Bool.false_ne_true, decimal_toDigits,
      Int.toNat_of_nonneg h]
  · rw [ofInt_of_neg (Int.not_le.1 h), number, if_pos rfl, decimal_toDigits,
      Int.toNat_of_nonneg (by omega), Int.neg_neg]

theorem ofInt_injective : Function.Injective ofInt := fun n n' h => by
  rw [← number_ofInt n, h, number_ofInt]

/-- The text of a number is the numeral of the number. -/
theorem denotes_toString (n : Int) : Denotes (toString n).toList (ofInt n) := by
  have htext : (toString n).toList =
      if 0 ≤ n then Nat.toDigits 10 n.toNat else '-' :: Nat.toDigits 10 (-n).toNat := by
    rw [Int.toString_eq_repr, Int.repr_eq_if]
    split
    · exact Nat.toList_repr
    · rw [String.toList_append, Nat.toList_repr]
      rfl
  rw [htext]
  split
  · next hn =>
    rw [ofInt_of_nonneg hn]
    exact .unsigned (digits_toDigits _)
  · next hn =>
    rw [ofInt_of_neg (Int.not_le.1 hn)]
    exact .minus (digits_toDigits _)

theorem Denotes.digits (h : Denotes text numeral) : Digits numeral.digits := by
  cases h <;> assumption

theorem decimal_lt {digits : List Char} (h : Digits digits) :
    decimal digits < 10 ^ digits.length := by
  have hlt := Nat.ofDigits_lt_base_pow_length (b := 10)
    (l := digits.reverse.map fun c => c.toNat - '0'.toNat) (by decide) fun d hd => by
      obtain ⟨c, hc, rfl⟩ := List.mem_map.1 hd
      have hdigit := h.isDigit c (List.mem_reverse.1 hc)
      simp only [Char.isDigit, ge_iff_le, Bool.and_eq_true, decide_eq_true_eq,
        UInt32.le_iff_toNat_le] at hdigit
      have h₂ : c.toNat ≤ 57 := hdigit.2
      have hzero : '0'.toNat = 48 := rfl
      omega
  rwa [List.length_map, List.length_reverse] at hlt

/-- A number has no more digits than a numeral that stands for it. -/
theorem digitCount_number_le (h : Digits numeral.digits) :
    digitCount numeral.number ≤ numeral.digits.length := by
  have habs : numeral.number.natAbs = decimal numeral.digits := by
    unfold number
    split <;> omega
  rw [digitCount, habs]
  exact Nat.toDigits_length 10 _ _ (List.length_pos_iff.2 h.ne_nil) (decimal_lt h)

end Numeral

namespace Program

open Numeral

variable {text : String} {field : List Char} {numeral : Numeral} {numerals : List Numeral}
  {words : List Int} {limit : DigitLimit}

/-- No blanks are needed around a numeral. -/
theorem Holds.of_denotes (h : Denotes field numeral) : Holds field numeral := by
  have hblank : AllBlank [] := nofun
  have hh := Holds.intro hblank h hblank
  rwa [List.append_nil, List.nil_append] at hh

theorem Holds.digits (h : Holds field numeral) : Digits numeral.digits := by
  obtain ⟨-, h, -⟩ := h
  exact h.digits

theorem Reads.digits {text : List Char} (h : Reads text numerals) :
    ∀ n ∈ numerals, Digits n.digits := by
  induction h with
  | nothing => exact List.forall_mem_nil _
  | last h => exact List.forall_mem_singleton.2 h.digits
  | more h _ ih => exact List.forall_mem_cons.2 ⟨h.digits, ih⟩

theorem toList_intercalate_words (words : List Int) :
    (",".intercalate (words.map toString)).toList =
      [','].intercalate (words.map fun n => (toString n).toList) := by
  rw [String.toList_intercalate, List.map_map]
  rfl

/-- The text of a program is read as the numerals of its words. -/
theorem reads_intercalate (words : List Int) :
    Reads (",".intercalate (words.map toString)).toList (words.map ofInt) := by
  rw [toList_intercalate_words]
  induction words with
  | nil => exact .nothing nofun
  | cons n words ih =>
    have hn := Holds.of_denotes (denotes_toString n)
    cases words with
    | nil =>
      rw [List.map_singleton, List.intercalate_singleton]
      exact .last hn
    | cons m words =>
      rw [List.map_cons, List.map_cons, List.intercalate_cons_cons, List.append_assoc]
      exact .more hn ih

theorem map_number_ofInt (words : List Int) : (words.map ofInt).map number = words := by
  rw [List.map_map]
  exact List.map_id'' number_ofInt words

theorem write_eq_ok_iff : write limit words = .ok text ↔
    limit.Writes words ∧ ",".intercalate (words.map toString) = text :=
  DigitLimit.written_eq_ok_iff

/-- A written program is read as its words, by each host that writes them. -/
theorem read_of_write (h : limit.Writes words) :
    read limit (",".intercalate (words.map toString)) = .ok words := by
  refine read_eq_ok_iff.2 ⟨words.map ofInt, reads_intercalate words, fun n hn => ?_,
    (map_number_ofInt words).symm⟩
  obtain ⟨word, hword, rfl⟩ := List.mem_map.1 hn
  exact h word hword

/-- A host writes the words that it has read. -/
theorem writes_of_read (h : read limit text = .ok words) : limit.Writes words := by
  obtain ⟨numerals, hreads, ha, rfl⟩ := read_eq_ok_iff.1 h
  intro n hn
  obtain ⟨numeral, hnumeral, rfl⟩ := List.mem_map.1 hn
  exact (ha numeral hnumeral).mono (digitCount_number_le (hreads.digits numeral hnumeral))

-- A zero in front counts as a digit.
example : read (some 2) "07" = .ok [7] ∧
    read (some 2) "007" = .error (.tooManyDigits ⟨2, some 3⟩) := by decide +kernel

end Program

end Wordcode
