import Mathlib.Data.List.Induction
import Mathlib.Data.List.TakeWhile
import Mathlib.Data.Nat.Digits.Defs
import Wordcode.Program.Reader

/-!
# Fields

A field is what stands between two commas of a program text. It holds a numeral
if it is one with blanks around it (`Holds`). Reading takes fields off the
front of a text: what `readField` finds there tells the shape of the text, and
the other way round (`readField_eq_nothing_iff`, `readField_eq_last_iff`,
`readField_eq_more_iff`).
-/

namespace Wordcode

namespace Numeral

/-- Decimal digits, at least one. -/
structure Digits (text : List Char) : Prop where
  ne_nil : text ≠ []
  isDigit : ∀ c ∈ text, c.isDigit = true

/-- The number that decimal digits stand for, the last digit counting ones. -/
def decimal (digits : List Char) : Nat :=
  Nat.ofDigits 10 (digits.reverse.map fun c => c.toNat - '0'.toNat)

/-- The number that a numeral stands for. -/
def number (numeral : Numeral) : Int :=
  if numeral.negative then -decimal numeral.digits else decimal numeral.digits

/-- A text is a numeral: digits behind a sign or none. -/
inductive Denotes : List Char → Numeral → Prop
  | unsigned {digits : List Char} (h : Digits digits) : Denotes digits ⟨false, digits⟩
  | plus {digits : List Char} (h : Digits digits) : Denotes ('+' :: digits) ⟨false, digits⟩
  | minus {digits : List Char} (h : Digits digits) : Denotes ('-' :: digits) ⟨true, digits⟩

/-- No digit stands at the front of a text. -/
def Ends (text : List Char) : Prop := ∀ c ∈ text.head?, c.isDigit = false

variable {text digits rest numeral : List Char} {n : Numeral}

/-! ## The value of digits -/

theorem ofDigitChars_eq_decimal : Nat.ofDigitChars 10 digits 0 = decimal digits := by
  induction digits using List.reverseRecOn with
  | nil => rfl
  | append_singleton digits c ih =>
    have hlast : decimal (digits ++ [c]) = (c.toNat - '0'.toNat) + 10 * decimal digits := by
      simp only [decimal, List.reverse_append, List.reverse_singleton, List.singleton_append,
        List.map_cons, Nat.ofDigits_cons]
    rw [Nat.ofDigitChars_append, ih, hlast, Nat.add_comm]
    rfl

theorem value_eq_number (n : Numeral) : n.value = n.number := by
  unfold value number
  rw [ofDigitChars_eq_decimal]

/-! ## The longest numeral -/

theorem takeWhile_digits (h : ∀ c ∈ digits, c.isDigit = true) (hr : Ends rest) :
    (digits ++ rest).takeWhile Char.isDigit = digits := by
  rw [List.takeWhile_append_of_pos h]
  cases rest with
  | nil => simp
  | cons c rest => simp [hr c rfl]

theorem dropWhile_digits (h : ∀ c ∈ digits, c.isDigit = true) (hr : Ends rest) :
    (digits ++ rest).dropWhile Char.isDigit = rest := by
  rw [List.dropWhile_append_of_pos h]
  cases rest with
  | nil => rfl
  | cons c rest => simp [hr c rfl]

theorem ends_dropWhile : Ends (text.dropWhile Char.isDigit) := by
  intro c hc
  have h := List.head?_dropWhile_not Char.isDigit text
  rw [hc] at h
  exact h

/-- Digits are no sign. -/
theorem readSign_of_digits (h : Digits digits) :
    readSign (digits ++ rest) = (false, digits ++ rest) := by
  obtain ⟨c, cs, rfl⟩ := List.exists_cons_of_ne_nil h.ne_nil
  have hc := h.isDigit c List.mem_cons_self
  unfold readSign
  split
  · next heq =>
    cases heq
    cases hc
  · next heq =>
    cases heq
    cases hc
  · rfl

theorem read?_of_readSign {negative : Bool} (hs : readSign text = (negative, digits ++ rest))
    (h : Digits digits) (hr : Ends rest) : read? text = some (⟨negative, digits⟩, rest) := by
  simp only [read?, hs, takeWhile_digits h.isDigit hr, dropWhile_digits h.isDigit hr]
  split
  · exact absurd rfl h.ne_nil
  · rfl

/-- A numeral is read off the front of a text if no digit follows it. -/
theorem read?_of_denotes (h : Denotes numeral n) (hr : Ends rest) :
    read? (numeral ++ rest) = some (n, rest) := by
  cases h with
  | unsigned h => exact read?_of_readSign (readSign_of_digits h) h hr
  | plus h => exact read?_of_readSign rfl h hr
  | minus h => exact read?_of_readSign rfl h hr

/-- The sign that is read stands in front of the text that is left. -/
theorem readSign_cases (text : List Char) :
    (∃ rest, text = '-' :: rest ∧ readSign text = (true, rest)) ∨
    (∃ rest, text = '+' :: rest ∧ readSign text = (false, rest)) ∨
    readSign text = (false, text) := by
  unfold readSign
  split
  · exact .inl ⟨_, rfl, rfl⟩
  · exact .inr (.inl ⟨_, rfl, rfl⟩)
  · exact .inr (.inr rfl)

/-- What is read is a numeral, as long as it can be. -/
theorem exists_denotes_of_read? (h : read? text = some (n, rest)) :
    ∃ numeral, text = numeral ++ rest ∧ Denotes numeral n ∧ Ends rest := by
  have hread : ∃ digits, Digits digits ∧ (readSign text).2 = digits ++ rest ∧
      n = ⟨(readSign text).1, digits⟩ ∧ Ends rest := by
    simp only [read?] at h
    split at h
    · cases h
    · next hne =>
      cases h
      exact ⟨_, ⟨hne, fun c hc => List.mem_takeWhile_imp hc⟩,
        List.takeWhile_append_dropWhile.symm, rfl, ends_dropWhile⟩
  obtain ⟨digits, hd, hu, rfl, hr⟩ := hread
  rcases readSign_cases text with ⟨unsigned, rfl, hs⟩ | ⟨unsigned, rfl, hs⟩ | hs
  · rw [hs] at hu ⊢
    cases hu
    exact ⟨'-' :: digits, rfl, .minus hd, hr⟩
  · rw [hs] at hu ⊢
    cases hu
    exact ⟨'+' :: digits, rfl, .plus hd, hr⟩
  · rw [hs] at hu ⊢
    exact ⟨digits, hu, .unsigned hd, hr⟩

/-- A numeral begins with a character that is no blank, and that is no comma. -/
theorem Denotes.exists_cons (h : Denotes numeral n) :
    ∃ c cs, numeral = c :: cs ∧ isBlank c = false := by
  cases h with
  | unsigned h =>
    obtain ⟨c, cs, rfl⟩ := List.exists_cons_of_ne_nil h.ne_nil
    exact ⟨c, cs, rfl, isBlank_eq_false_of_isDigit (h.isDigit c List.mem_cons_self)⟩
  | plus => exact ⟨_, _, rfl, rfl⟩
  | minus => exact ⟨_, _, rfl, rfl⟩

theorem Digits.comma_not_mem (h : Digits digits) : ',' ∉ digits := fun hc => by
  cases h.isDigit ',' hc

theorem Denotes.comma_not_mem (h : Denotes numeral n) : ',' ∉ numeral := by
  cases h with
  | unsigned h => exact h.comma_not_mem
  | plus h => exact List.not_mem_cons_of_ne_of_not_mem nofun h.comma_not_mem
  | minus h => exact List.not_mem_cons_of_ne_of_not_mem nofun h.comma_not_mem

end Numeral

namespace Program

open Numeral

/-- There is nothing but blanks. -/
def AllBlank (text : List Char) : Prop := ∀ c ∈ text, isBlank c = true

/-- A field holds a numeral: it is one with blanks around it. -/
inductive Holds : List Char → Numeral → Prop
  | intro {before numeral behind : List Char} {n : Numeral} (hb : AllBlank before)
    (h : Denotes numeral n) (ha : AllBlank behind) : Holds (before ++ numeral ++ behind) n

variable {text rest field before numeral behind : List Char} {n : Numeral}

theorem AllBlank.comma_not_mem (h : AllBlank text) : ',' ∉ text := fun hc => by
  cases h ',' hc

theorem Holds.comma_not_mem (h : Holds field n) : ',' ∉ field := by
  obtain ⟨hb, h, ha⟩ := h
  rw [List.mem_append, List.mem_append]
  rintro ((hc | hc) | hc)
  · exact hb.comma_not_mem hc
  · exact h.comma_not_mem hc
  · exact ha.comma_not_mem hc

/-- Neither a blank nor a comma is a digit. -/
theorem AllBlank.ends (h : AllBlank behind) (hr : ∀ c ∈ rest.head?, c = ',') :
    Ends (behind ++ rest) := by
  intro c hc
  cases behind with
  | nil =>
    rw [hr c hc]
    rfl
  | cons b behind =>
    cases hc
    have hblank := h c List.mem_cons_self
    refine Bool.eq_false_iff.2 fun hd => ?_
    rw [isBlank_eq_false_of_isDigit hd] at hblank
    cases hblank

/-! ## Reading a field -/

theorem dropWhile_blanks (hb : AllBlank before) (h : Denotes numeral n) :
    (before ++ (numeral ++ rest)).dropWhile isBlank = numeral ++ rest := by
  obtain ⟨c, cs, rfl, hc⟩ := h.exists_cons
  rw [List.dropWhile_append_of_pos hb, List.cons_append, List.dropWhile_cons, hc]
  rfl

theorem readField_of_blank (h : AllBlank text) : readField text = .nothing := by
  rw [readField, List.dropWhile_eq_nil_iff.2 h]

/-- Whether a numeral is the last depends on the comma behind it. -/
theorem readField_of_denotes (hb : AllBlank before) (h : Denotes numeral n) (ha : AllBlank behind)
    (rest : List Char) (hr : ∀ c ∈ rest.head?, c = ',') :
    readField (before ++ (numeral ++ (behind ++ rest))) =
      match rest with
      | [] => .last n
      | _ :: tail => .more n tail := by
  obtain ⟨c, cs, hc, -⟩ := h.exists_cons
  simp only [readField]
  split
  · next hnil =>
    rw [dropWhile_blanks hb h, hc] at hnil
    cases hnil
  · rw [dropWhile_blanks hb h, read?_of_denotes h (ha.ends hr)]
    cases rest with
    | nil => simp only [List.append_nil, List.dropWhile_eq_nil_iff.2 ha]
    | cons c tail =>
      obtain rfl : c = ',' := hr c rfl
      have hdrop : (behind ++ ',' :: tail).dropWhile isBlank = ',' :: tail :=
        List.dropWhile_append_of_pos ha
      simp only [hdrop]

theorem readField_of_holds (h : Holds text n) : readField text = .last n := by
  obtain ⟨hb, h, ha⟩ := h
  have hread := readField_of_denotes hb h ha [] nofun
  rwa [List.append_nil, ← List.append_assoc] at hread

theorem readField_of_holds_comma (h : Holds field n) :
    readField (field ++ ',' :: rest) = .more n rest := by
  obtain ⟨hb, h, ha⟩ := h
  rw [List.append_assoc, List.append_assoc]
  exact readField_of_denotes hb h ha _ fun c hc => by cases hc; rfl

theorem allBlank_takeWhile : AllBlank (text.takeWhile isBlank) := fun _ hc =>
  List.mem_takeWhile_imp hc

/-- A numeral that is found behind blanks, with what follows the blanks behind it. -/
theorem exists_holds_of_read? (h : read? (text.dropWhile isBlank) = some (n, behind)) :
    ∃ field, Holds field n ∧ text = field ++ behind.dropWhile isBlank := by
  obtain ⟨numeral, hs, hn, -⟩ := exists_denotes_of_read? h
  refine ⟨text.takeWhile isBlank ++ numeral ++ behind.takeWhile isBlank,
    .intro allBlank_takeWhile hn allBlank_takeWhile, ?_⟩
  rw [List.append_assoc, List.takeWhile_append_dropWhile, List.append_assoc, ← hs,
    List.takeWhile_append_dropWhile]

theorem readField_eq_nothing_iff : readField text = .nothing ↔ AllBlank text := by
  refine ⟨fun h => ?_, readField_of_blank⟩
  simp only [readField] at h
  split at h
  · next hs => exact List.dropWhile_eq_nil_iff.1 hs
  · split at h
    · cases h
    · split at h <;> cases h

theorem readField_eq_last_iff : readField text = .last n ↔ Holds text n := by
  refine ⟨fun h => ?_, readField_of_holds⟩
  simp only [readField] at h
  split at h
  · cases h
  · split at h
    · cases h
    · next hread =>
      obtain ⟨field, hf, htext⟩ := exists_holds_of_read? hread
      split at h
      · next hend =>
        cases h
        rwa [htext, hend, List.append_nil]
      · cases h
      · cases h

theorem readField_eq_more_iff :
    readField text = .more n rest ↔ ∃ field, Holds field n ∧ text = field ++ ',' :: rest := by
  constructor
  · intro h
    simp only [readField] at h
    split at h
    · cases h
    · split at h
      · cases h
      · next hread =>
        obtain ⟨field, hf, htext⟩ := exists_holds_of_read? hread
        split at h
        · cases h
        · next hcomma =>
          cases h
          exact ⟨field, hf, by rwa [hcomma] at htext⟩
        · cases h
  · rintro ⟨field, hf, rfl⟩
    exact readField_of_holds_comma hf

end Program

end Wordcode
