/-!
# Patching programs

Writing single words into a program before it is loaded. A program too short for an address is
filled up with zeros, as a memory would be. The host is assumed to write the address that the text
of an error names.
-/

namespace Wordcode

namespace Program

/-- Why a program cannot be patched. -/
inductive PatchError where
  /-- An address is negative. -/
  | negativeAddress (address : Int)
  /-- An address lies further behind the end than the host can address. -/
  | tooLarge
deriving DecidableEq, Repr

/-- The text of the error. -/
def PatchError.message : PatchError → String
  | .negativeAddress address => s!"Cannot patch negative address {address}"
  | .tooLarge => "cannot fit 'int' into an index-sized integer"

/-- The most zeros that one word may take to fill up to its address: 2⁶³ - 1. -/
def paddingLimit : Int := 9223372036854775807

/-- The program with one word replaced. -/
def patchWord (words : List Int) (address value : Int) : Except PatchError (List Int) :=
  if address < 0 then .error (.negativeAddress address)
  else if paddingLimit < address + 1 - words.length then .error .tooLarge
  else
    let padding := List.replicate (address.toNat + 1 - words.length) 0
    .ok ((words ++ padding).set address.toNat value)

/-- The program with words replaced one after another. -/
def patch (words : List Int) (overrides : List (Int × Int)) : Except PatchError (List Int) :=
  overrides.foldlM (fun words (address, value) => patchWord words address value) words

/-- The pairs as a map in the order of first mention: a repeated address keeps its place and takes
the last value. -/
def overrideMap (pairs : List (Int × Int)) : List (Int × Int) :=
  pairs.foldl insert []
where
  /-- The map with one more pair. -/
  insert (map : List (Int × Int)) (pair : Int × Int) : List (Int × Int) :=
    if map.any (·.1 = pair.1) then
      map.map fun old => if old.1 = pair.1 then pair else old
    else map ++ [pair]

end Program

end Wordcode
