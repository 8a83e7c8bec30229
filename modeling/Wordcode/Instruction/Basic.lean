/-!
# Instructions

An instruction occupies one word and the parameter words behind it. The word fixes the operation
and, for each parameter, how its parameter word (the *literal*) is to be understood:

* a source is a cell at the literal's address (`position`), the literal itself (`immediate`), or a
  cell at the literal's distance from the base register (`relative`);
* a destination is a cell, so the immediate mode does not occur there.

`Instruction` has one constructor per shape, so a destination with the immediate mode cannot be
written down. `Opcode` is an instruction without its modes.
-/

namespace Wordcode

/-- How the literal of a source is understood. -/
inductive Mode where
  /-- The cell at the literal's address. -/
  | position
  /-- The literal itself. -/
  | immediate
  /-- The cell at the literal's distance from the base register. -/
  | relative
deriving DecidableEq, Repr

/-- The digit that stands for a mode in an instruction word. -/
def Mode.digit : Mode → Nat
  | .position => 0
  | .immediate => 1
  | .relative => 2

/-- The mode that a digit stands for. -/
def Mode.ofDigit? : Nat → Option Mode
  | 0 => some .position
  | 1 => some .immediate
  | 2 => some .relative
  | _ => none

/-- How the literal of a destination is understood. -/
inductive Destination where
  /-- The cell at the literal's address. -/
  | position
  /-- The cell at the literal's distance from the base register. -/
  | relative
deriving DecidableEq, Repr

/-- The mode of a destination, among those of a source. -/
def Destination.mode : Destination → Mode
  | .position => .position
  | .relative => .relative

/-- An operation on two operands whose result is stored. -/
inductive Computation where
  | add
  | multiply
  | lessThan
  | equals
deriving DecidableEq, Repr

/-- The result of an operation. A comparison yields 1 if it holds and 0 otherwise. -/
def Computation.apply : Computation → Int → Int → Int
  | .add, a, b => a + b
  | .multiply, a, b => a * b
  | .lessThan, a, b => if a < b then 1 else 0
  | .equals, a, b => if a = b then 1 else 0

/-- When a jump is taken. -/
inductive Condition where
  /-- The tested operand is not zero. -/
  | nonzero
  /-- The tested operand is zero. -/
  | zero
deriving DecidableEq, Repr

/-- A jump with the tested operand `value` is taken. -/
def Condition.Holds : Condition → Int → Prop
  | .nonzero, value => value ≠ 0
  | .zero, value => value = 0

instance (c : Condition) (value : Int) : Decidable (c.Holds value) :=
  match c with
  | .nonzero => inferInstanceAs (Decidable (value ≠ 0))
  | .zero => inferInstanceAs (Decidable (value = 0))

/-- What an instruction does, without the modes of its parameters. -/
inductive Opcode where
  | compute (operation : Computation)
  | input
  | output
  | jump (condition : Condition)
  | adjustBase
  | halt
deriving DecidableEq, Repr

namespace Opcode

/-- The number that stands for an operation in an instruction word. -/
def code : Opcode → Nat
  | .compute .add => 1
  | .compute .multiply => 2
  | .input => 3
  | .output => 4
  | .jump .nonzero => 5
  | .jump .zero => 6
  | .compute .lessThan => 7
  | .compute .equals => 8
  | .adjustBase => 9
  | .halt => 99

/-- The operation that a number stands for. -/
def ofCode? : Nat → Option Opcode
  | 1 => some (.compute .add)
  | 2 => some (.compute .multiply)
  | 3 => some .input
  | 4 => some .output
  | 5 => some (.jump .nonzero)
  | 6 => some (.jump .zero)
  | 7 => some (.compute .lessThan)
  | 8 => some (.compute .equals)
  | 9 => some .adjustBase
  | 99 => some .halt
  | _ => none

/-- The name of an operation in a listing. -/
def mnemonic : Opcode → String
  | .compute .add => "ADD"
  | .compute .multiply => "MUL"
  | .input => "IN"
  | .output => "OUT"
  | .jump .nonzero => "JNZ"
  | .jump .zero => "JZ"
  | .compute .lessThan => "LT"
  | .compute .equals => "EQ"
  | .adjustBase => "ARB"
  | .halt => "HLT"

/-- The number of parameters. -/
def arity : Opcode → Nat
  | .compute _ => 3
  | .input => 1
  | .output => 1
  | .jump _ => 2
  | .adjustBase => 1
  | .halt => 0

/-- The indices of the parameters that are destinations. -/
def destinations : Opcode → List Nat
  | .compute _ => [2]
  | .input => [0]
  | _ => []

theorem ofCode?_code (op : Opcode) : ofCode? op.code = some op := by
  rcases op with (_ | _ | _ | _) | _ | _ | (_ | _) | _ | _ <;> rfl

theorem ofCode?_eq_some_iff {n : Nat} {op : Opcode} : ofCode? n = some op ↔ n = op.code := by
  constructor
  · intro h
    simp only [ofCode?] at h
    split at h <;> cases h <;> rfl
  · rintro rfl
    exact ofCode?_code op

end Opcode

theorem Mode.ofDigit?_digit (mode : Mode) : ofDigit? mode.digit = some mode := by
  cases mode <;> rfl

theorem Mode.ofDigit?_eq_some_iff {n : Nat} {mode : Mode} :
    ofDigit? n = some mode ↔ n = mode.digit := by
  constructor
  · intro h
    simp only [ofDigit?] at h
    split at h <;> cases h <;> rfl
  · rintro rfl
    exact ofDigit?_digit mode

/-- A decoded instruction. -/
inductive Instruction where
  /-- Stores the result of an operation on two sources. -/
  | compute (operation : Computation) (left right : Mode) (result : Destination)
  /-- Stores the next input value. -/
  | input (result : Destination)
  /-- Outputs a source. -/
  | output (source : Mode)
  /-- Continues at the address `goal` if the condition holds of `test`. -/
  | jump (condition : Condition) (test goal : Mode)
  /-- Adds a source to the base register. -/
  | adjustBase (source : Mode)
  /-- Stops the machine. -/
  | halt
deriving DecidableEq, Repr

namespace Instruction

/-- The instruction without its modes. -/
def opcode : Instruction → Opcode
  | .compute operation _ _ _ => .compute operation
  | .input _ => .input
  | .output _ => .output
  | .jump condition _ _ => .jump condition
  | .adjustBase _ => .adjustBase
  | .halt => .halt

/-- The modes of the parameters, in their order. -/
def modes : Instruction → List Mode
  | .compute _ left right result => [left, right, result.mode]
  | .input result => [result.mode]
  | .output source => [source]
  | .jump _ test goal => [test, goal]
  | .adjustBase source => [source]
  | .halt => []

/-- The number of words that the instruction occupies. -/
def size (instruction : Instruction) : Nat := 1 + instruction.opcode.arity

@[simp] theorem length_modes (instruction : Instruction) :
    instruction.modes.length = instruction.opcode.arity := by
  cases instruction <;> rfl

end Instruction

end Wordcode
