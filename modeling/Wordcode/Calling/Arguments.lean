import Wordcode.Calling.Basic

/-!
# Programs with two arguments

Some programs take two arguments, the noun at address 1 and the verb at address 2, and leave their
result at address 0. `findPair` searches for arguments that give a wanted result.
-/

namespace Wordcode

/-- The address of the first argument. -/
def nounAddress : Int := 1

/-- The address of the second argument. -/
def verbAddress : Int := 2

/-- The result of a program with two arguments. -/
def callWith (fuel : Nat) (program : List Int) (noun verb : Int) : CallM Int := do
  match Program.patch program [(nounAddress, noun), (verbAddress, verb)] with
  | .error e => throw (.unpatched e)
  | .ok patched =>
    let m ← halted fuel patched []
    return m.memory.peek 0

/-- The result of a program with two arguments, or `none` if it ends at a fault or waits for
input. -/
def attempt (fuel : Nat) (program : List Int) (noun verb : Int) : CallM (Option Int) := do
  try
    return some (← callWith fuel program noun verb)
  catch
    | .interrupted (.blocked _) => return none
    | .interrupted (.failed (.fault _)) => return none
    | e => throw e

/-- Searches the last `remaining` of the pairs below `limit`, which are ordered by the noun and
then by the verb. -/
def findPairFrom (fuel : Nat) (program : List Int) (target limit : Int) :
    Nat → CallM (Nat × Nat)
  | 0 => throw (.noPair limit target)
  | remaining + 1 => do
    let below := limit.toNat
    let index := below * below - (remaining + 1)
    let noun := index / below
    let verb := index % below
    let result ← attempt fuel program noun verb
    if result = some target then
      modify (·.note (.found noun verb target))
      return (noun, verb)
    else findPairFrom fuel program target limit remaining

/-- The first pair of arguments below `limit`, ordered by the noun and then by the verb, for which
the program's result is `target`. -/
def findPair (fuel : Nat) (program : List Int) (target limit : Int) : CallM (Nat × Nat) :=
  findPairFrom fuel program target limit (limit.toNat * limit.toNat)

end Wordcode
