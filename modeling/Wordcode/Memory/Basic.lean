/-!
# Memory

A memory is a row of integer cells at addresses 0, 1, 2, … that grows forward on demand: an access
past the end first appends zero cells up to and including the accessed address. Cells are never
removed. Addresses are integers, so an access can also fail, in two ways: the address is negative,
or growing up to it would append more cells than the host can address.

A failed access returns no memory, so there is nothing it could have changed. The error of an access
to a negative address carries a text with the address, which the host is assumed to write.
-/

namespace Wordcode

/-- A row of integer cells, addressed from 0. -/
@[ext] structure Memory where
  /-- The cells, in the order of their addresses. -/
  cells : Array Int
deriving DecidableEq, Repr, Inhabited

namespace Memory

/-- Why an access fails. -/
inductive AccessError where
  /-- The address is negative. -/
  | negative (address : Int)
  /-- The access would append more than `growthLimit` cells. -/
  | tooLarge
deriving DecidableEq, Repr

/-- The most cells that one access may append: 2⁶³ - 1. -/
def growthLimit : Int := 9223372036854775807

/-- The memory whose cells are the given words. -/
def ofList (words : List Int) : Memory := ⟨words.toArray⟩

/-- The cells from address 0 on. -/
def toList (m : Memory) : List Int := m.cells.toList

/-- The number of cells. -/
def size (m : Memory) : Nat := m.cells.size

/-- The cell at `address`, or 0 where there is none. Never grows the memory. -/
def peek (m : Memory) (address : Int) : Int :=
  if address < 0 then 0 else m.cells.getD address.toNat 0

/-- The memory with zero cells appended until it has at least `n` cells. -/
def growTo (m : Memory) (n : Nat) : Memory :=
  if n ≤ m.cells.size then m else ⟨m.cells ++ Array.replicate (n - m.cells.size) 0⟩

/-- The index of the cell that an access to `address` of a memory of `size` cells reaches. -/
def index (size : Nat) (address : Int) : Except AccessError Nat :=
  if address < 0 then .error (.negative address)
  else if growthLimit < address + 1 - size then .error .tooLarge
  else .ok address.toNat

/-- The value at `address`, with the memory grown to hold that address. -/
@[inline] def read (m : Memory) (address : Int) : Except AccessError (Int × Memory) :=
  match index m.size address with
  | .error e => .error e
  | .ok i =>
    let grown := m.growTo (i + 1)
    .ok (grown.cells.getD i 0, grown)

/-- The memory with `value` at `address`, grown to hold that address. -/
@[inline] def write (m : Memory) (address value : Int) : Except AccessError Memory :=
  match index m.size address with
  | .error e => .error e
  | .ok i => .ok ⟨(m.growTo (i + 1)).cells.setIfInBounds i value⟩

end Memory

end Wordcode
