/-!
# Queues

An unbounded queue of integers, one end of a machine's channel to the outside. Every operation is
characterised through `Queue.toList`, the values from the oldest to the newest.
-/

namespace Wordcode

/-- An unbounded first-in, first-out queue of integers. -/
structure Queue where
  /-- The queued values, the oldest first. -/
  values : Array Int
deriving DecidableEq, Repr, Inhabited

namespace Queue

/-- The queue that holds nothing. -/
def empty : Queue := ⟨#[]⟩

instance : EmptyCollection Queue where
  emptyCollection := empty

/-- The queue of the given values, the first of them being the oldest. -/
def ofList (values : List Int) : Queue := ⟨values.toArray⟩

/-- The queued values, the oldest first. -/
def toList (q : Queue) : List Int := q.values.toList

/-- The number of queued values. -/
def size (q : Queue) : Nat := q.values.size

/-- Adds one value behind all others. -/
def push (q : Queue) (value : Int) : Queue := ⟨q.values.push value⟩

/-- Adds the values, in their order, behind all others. -/
def extend (q : Queue) (values : List Int) : Queue := ⟨q.values.appendList values⟩

/-- The oldest value and the queue without it, or `none` if nothing is queued. -/
def pop? (q : Queue) : Option (Int × Queue) :=
  match q.values[0]? with
  | none => none
  | some value => some (value, ⟨q.values.extract 1 q.values.size⟩)

/-- All queued values, and the queue left empty. -/
def drain (q : Queue) : List Int × Queue := (q.toList, empty)

variable {q r : Queue} {values : List Int} {value : Int}

@[ext] theorem ext (h : q.toList = r.toList) : q = r := by
  cases q; cases r; simpa [toList] using h

@[simp] theorem toList_empty : (∅ : Queue).toList = [] := rfl

@[simp] theorem toList_ofList : (ofList values).toList = values := by
  simp [ofList, toList]

@[simp] theorem length_toList : q.toList.length = q.size := by
  simp [toList, size]

@[simp] theorem toList_push : (q.push value).toList = q.toList ++ [value] := by
  simp [push, toList]

@[simp] theorem toList_extend : (q.extend values).toList = q.toList ++ values := by
  simp [extend, toList]

@[simp] theorem extend_nil : q.extend [] = q := by
  refine ext ?_
  rw [toList_extend, List.append_nil]

@[simp] theorem drain_fst : q.drain.1 = q.toList := rfl

@[simp] theorem drain_snd : q.drain.2 = ∅ := rfl

theorem pop?_eq_none_iff : q.pop? = none ↔ q.toList = [] := by
  obtain ⟨⟨l⟩⟩ := q
  cases l <;> simp [pop?, toList]

theorem pop?_eq_some_iff : q.pop? = some (value, r) ↔ q.toList = value :: r.toList := by
  obtain ⟨⟨l⟩⟩ := q
  obtain ⟨⟨l'⟩⟩ := r
  cases l <;> simp [pop?, toList]

end Queue

end Wordcode
