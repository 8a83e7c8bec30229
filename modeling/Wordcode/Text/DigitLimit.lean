/-!
# Limits on digits

A number has any size, but a host may limit the digits with which it reads and writes numbers. Where
a number has more of them, the host fails with an error of its own instead of making the number from
its text, or its text from the number. The sign never counts; of a text that is read all digits
count, also zeros in front.

The limit is a setting of the host: it can be switched off, and many hosts have none. Whatever reads
or writes numbers takes the limit as a parameter, `none` if there is none. What it would write is
given apart from it (`written`), as a text and the numbers that stand in the text.

Any limit leaves room for what the host itself counts: the addresses of cells, the sizes of memories
and queues, and numbers of steps. Their texts are written without asking for the limit.

A host also makes the text of an error together with the error. Where that text names a number from
the program or the caller, it is assumed that the host writes the number: a word that is no
instruction, an address that is out of reach, a target, a test's code. An error that names a number
with too many digits would itself be replaced by the host's error, so an operation that fails here
fails there too, and only the text of its error is another.
-/

namespace Wordcode

/-- The most digits with which a host reads and writes a number, if it limits them. -/
abbrev DigitLimit := Option Nat

/-- A number has more digits than the host reads or writes. -/
structure TooManyDigits where
  /-- The limit. -/
  most : Nat
  /-- The number of digits, if they were to be read. -/
  found : Option Nat
deriving DecidableEq, Repr

/-- The text of the error. -/
def TooManyDigits.message (error : TooManyDigits) : String :=
  let found := match error.found with
    | none => ""
    | some digits => s!": value has {digits} digits"
  s!"Exceeds the limit ({error.most} digits) for integer string conversion" ++ found ++
    "; use sys.set_int_max_str_digits() to increase the limit"

/-- Why something fails that also writes numbers. -/
inductive WritingError (ε : Type) where
  /-- It would fail on any host. -/
  | own (error : ε)
  /-- A number has too many digits for this one. -/
  | tooManyDigits (error : TooManyDigits)
deriving DecidableEq, Repr

/-- The text of the error. -/
def WritingError.message {ε : Type} (text : ε → String) : WritingError ε → String
  | .own error => text error
  | .tooManyDigits error => error.message

/-- The number of digits of the text of a number. -/
def digitCount (n : Int) : Nat := (Nat.toDigits 10 n.natAbs).length

namespace DigitLimit

/-- A host with the limit reads and writes numbers with so many digits. -/
def Allows : DigitLimit → Nat → Prop
  | none, _ => True
  | some most, digits => digits ≤ most

instance (limit : DigitLimit) (digits : Nat) : Decidable (limit.Allows digits) :=
  match limit with
  | none => .isTrue trivial
  | some most => inferInstanceAs (Decidable (digits ≤ most))

/-- A host with the limit writes each of the numbers. -/
def Writes (limit : DigitLimit) (numbers : List Int) : Prop :=
  ∀ n ∈ numbers, limit.Allows (digitCount n)

instance (limit : DigitLimit) (numbers : List Int) : Decidable (limit.Writes numbers) :=
  inferInstanceAs (Decidable (∀ n ∈ numbers, limit.Allows (digitCount n)))

/-- The error of writing a number with too many digits. A host without limit does not have it. -/
def excess (limit : DigitLimit) : TooManyDigits := ⟨limit.getD 0, none⟩

/-- A text in which the numbers stand, if the host writes them. -/
def written (limit : DigitLimit) (numbers : List Int) (text : String) :
    Except TooManyDigits String :=
  if limit.Writes numbers then .ok text else .error limit.excess

/-- The numbers up to the first one that a host with the limit does not write. -/
def front (limit : DigitLimit) (numbers : List Int) : List Int :=
  numbers.takeWhile fun n => limit.Allows (digitCount n)

variable {limit : DigitLimit} {numbers others : List Int} {text text' : String}

@[simp] theorem allows_none (digits : Nat) : Allows none digits := trivial

@[simp] theorem writes_none (numbers : List Int) : Writes none numbers := fun _ _ => trivial

@[simp] theorem writes_nil (limit : DigitLimit) : limit.Writes [] := List.forall_mem_nil _

theorem Allows.mono {digits fewer : Nat} (h : limit.Allows digits) (hle : fewer ≤ digits) :
    limit.Allows fewer := by
  cases limit with
  | none => trivial
  | some most => exact Nat.le_trans hle h

theorem writes_append : limit.Writes (numbers ++ others) ↔
    limit.Writes numbers ∧ limit.Writes others := List.forall_mem_append

theorem writes_cons {n : Int} : limit.Writes (n :: numbers) ↔
    limit.Writes [n] ∧ limit.Writes numbers := by
  rw [← writes_append]
  rfl

theorem front_of_writes (h : limit.Writes numbers) : limit.front numbers = numbers := by
  have hfront : limit.front (numbers ++ []) = numbers ++ limit.front [] :=
    List.takeWhile_append_of_pos fun n hn => decide_eq_true (h n hn)
  have hnil : limit.front [] = [] := List.takeWhile_nil
  rwa [hnil, List.append_nil] at hfront

@[simp] theorem front_none (numbers : List Int) : front none numbers = numbers :=
  front_of_writes (writes_none numbers)

theorem written_of_writes (h : limit.Writes numbers) : limit.written numbers text = .ok text :=
  if_pos h

theorem written_of_not_writes (h : ¬ limit.Writes numbers) :
    limit.written numbers text = .error limit.excess := if_neg h

theorem written_eq_ok_iff :
    limit.written numbers text = .ok text' ↔ limit.Writes numbers ∧ text = text' := by
  by_cases h : limit.Writes numbers
  · rw [written_of_writes h, Except.ok.injEq, and_iff_right h]
  · rw [written_of_not_writes h]
    exact iff_of_false nofun fun h' => h h'.1

end DigitLimit

-- Ten digits and a sign, on hosts that write ten and nine.
example : DigitLimit.written (some 10) [-1234567890] "-1234567890" = .ok "-1234567890" ∧
    DigitLimit.written (some 9) [-1234567890] "-1234567890" = .error ⟨9, none⟩ := ⟨rfl, rfl⟩

end Wordcode
