import Mathlib.Data.List.Lex
import Mathlib.Data.List.Nodup
import Mathlib.Data.Nat.Factorial.Basic
import Wordcode.Circuit.Orderings

/-!
# Which orderings there are

The orderings of a list are its permutations (`mem_orderings_iff`), the list
itself first. They are the orderings of its positions, with each position
replaced by the element there (`orderings_eq_map_positions`). Those of the
positions come in lexicographic order, so that each comes once
(`enumerates_orderings`).
-/

namespace Wordcode

variable {α β : Type} {a : α} {l σ rest : List α} {n : Nat}

/-! ## Selections -/

theorem mem_selections_iff :
    (a, rest) ∈ selections l ↔
      ∃ before after, l = before ++ a :: after ∧ rest = before ++ after := by
  induction l generalizing a rest with
  | nil => simp [selections]
  | cons b l ih =>
    simp only [selections, List.mem_cons, List.mem_map, Prod.exists, Prod.mk.injEq, ih]
    constructor
    · rintro (⟨rfl, rfl⟩ | ⟨_, _, ⟨before, after, rfl, rfl⟩, rfl, rfl⟩)
      · exact ⟨[], _, rfl, rfl⟩
      · exact ⟨b :: before, after, rfl, rfl⟩
    · rintro ⟨before, after, hl, rfl⟩
      cases before with
      | nil =>
        cases hl
        exact .inl ⟨rfl, rfl⟩
      | cons c before =>
        cases hl
        exact .inr ⟨a, before ++ after, ⟨before, after, rfl, rfl⟩, rfl, rfl⟩

theorem map_fst_selections : (selections l).map Prod.fst = l := by
  induction l with
  | nil => rfl
  | cons a l ih =>
    simp only [selections, List.map_cons, List.map_map, Function.comp_def]
    exact congrArg (a :: ·) ih

theorem selections_map (f : α → β) :
    selections (l.map f) = (selections l).map (Prod.map f (List.map f)) := by
  induction l with
  | nil => rfl
  | cons a l ih =>
    simp only [List.map_cons, selections, ih, List.map_map]
    rfl

theorem length_of_mem_selections (h : (a, rest) ∈ selections l) :
    l.length = rest.length + 1 := by
  obtain ⟨before, after, rfl, rfl⟩ := mem_selections_iff.1 h
  simp only [List.length_append, List.length_cons, Nat.add_assoc]

/-- What is left of a list stands in it in the same order. -/
theorem sublist_of_mem_selections (h : (a, rest) ∈ selections l) : rest.Sublist l := by
  obtain ⟨before, after, rfl, rfl⟩ := mem_selections_iff.1 h
  exact (List.Sublist.refl before).append (List.sublist_cons_self a after)

/-! ## Orderings -/

theorem mem_orderingsOfLength_iff (h : l.length = n) :
    σ ∈ orderingsOfLength n l ↔ σ.Perm l := by
  induction n generalizing l σ with
  | zero =>
    obtain rfl := List.eq_nil_of_length_eq_zero h
    simp [orderingsOfLength]
  | succ n ih =>
    simp only [orderingsOfLength, List.mem_flatMap, List.mem_map, Prod.exists]
    constructor
    · rintro ⟨a, rest, hsel, τ, hτ, rfl⟩
      have hlen := length_of_mem_selections hsel
      obtain ⟨before, after, rfl, rfl⟩ := mem_selections_iff.1 hsel
      exact (((ih (by omega)).1 hτ).cons a).trans List.perm_middle.symm
    · intro hσ
      obtain ⟨a, τ, rfl⟩ := List.exists_cons_of_length_eq_add_one (hσ.length_eq.trans h)
      obtain ⟨before, after, rfl⟩ := List.append_of_mem (hσ.mem_iff.1 List.mem_cons_self)
      have hsel : (a, before ++ after) ∈ selections (before ++ a :: after) :=
        mem_selections_iff.2 ⟨before, after, rfl, rfl⟩
      have hlen := length_of_mem_selections hsel
      have hτ : τ.Perm (before ++ after) := List.Perm.cons_inv (hσ.trans List.perm_middle)
      exact ⟨a, before ++ after, hsel, τ, (ih (by omega)).2 hτ, rfl⟩

theorem mem_orderings_iff : σ ∈ orderings l ↔ σ.Perm l := mem_orderingsOfLength_iff rfl

theorem length_orderingsOfLength (h : l.length = n) :
    (orderingsOfLength n l).length = n.factorial := by
  induction n generalizing l with
  | zero => rfl
  | succ n ih =>
    have hrest : ∀ s ∈ selections l, ((orderingsOfLength n s.2).map (s.1 :: ·)).length =
        n.factorial := by
      rintro ⟨a, rest⟩ hs
      have hlen := length_of_mem_selections hs
      exact (List.length_map _).trans (ih (Nat.succ.inj (hlen.symm.trans h)))
    rw [orderingsOfLength, List.length_flatMap, List.map_congr_left hrest, List.map_const',
      List.sum_replicate_nat, length_selections, h, Nat.factorial_succ]

theorem orderingsOfLength_map (f : α → β) :
    orderingsOfLength n (l.map f) = (orderingsOfLength n l).map (List.map f) := by
  induction n generalizing l with
  | zero => rfl
  | succ n ih =>
    simp only [orderingsOfLength, selections_map, List.flatMap_map, List.map_flatMap,
      Prod.map_fst, Prod.map_snd, ih, List.map_map]
    rfl

theorem head?_orderingsOfLength (h : l.length = n) : (orderingsOfLength n l).head? = some l := by
  induction n generalizing l with
  | zero =>
    obtain rfl := List.eq_nil_of_length_eq_zero h
    rfl
  | succ n ih =>
    obtain ⟨a, l, rfl⟩ := List.exists_cons_of_length_eq_add_one h
    have hl := ih (Nat.succ.inj h)
    simp only [orderingsOfLength, selections, List.flatMap_cons, List.head?_append, List.head?_map,
      hl, Option.map_some, Option.some_or]

/-- Whatever ascends has its orderings in lexicographic order. -/
theorem pairwise_orderingsOfLength {l : List Nat} (hl : l.Pairwise (· < ·)) :
    (orderingsOfLength n l).Pairwise (· < ·) := by
  induction n generalizing l with
  | zero => exact List.pairwise_singleton ..
  | succ n ih =>
    rw [orderingsOfLength, List.pairwise_flatMap]
    constructor
    · rintro ⟨a, rest⟩ hs
      refine (List.pairwise_map.2 ((ih (hl.sublist (sublist_of_mem_selections hs))).imp ?_))
      exact fun h => List.cons_lt_cons_iff.2 (.inr ⟨rfl, h⟩)
    · -- The first elements are those of the list, in their order.
      have hfst : (selections l).Pairwise (fun s t => s.1 < t.1) := by
        rw [← List.pairwise_map (f := Prod.fst) (R := (· < ·)), map_fst_selections]
        exact hl
      refine hfst.imp fun hst σ hσ τ hτ => ?_
      obtain ⟨_, -, rfl⟩ := List.mem_map.1 hσ
      obtain ⟨_, -, rfl⟩ := List.mem_map.1 hτ
      exact List.cons_lt_cons_iff.2 (.inl hst)

/-! ## Positions -/

/-- The orderings of a list are those of its positions. -/
theorem orderings_eq_map_positions (l : List Int) :
    orderings l = (orderings (List.range l.length)).map (List.map fun i => l.getD i 0) := by
  have hl : l = (List.range l.length).map fun i => l.getD i 0 := by
    refine List.ext_getElem (by simp) fun i hi _ => ?_
    simp [List.getD_eq_getElem?_getD, List.getElem?_eq_getElem hi]
  conv_lhs => rw [hl]
  rw [orderings, orderingsOfLength_map, orderings, List.length_map]

/-- All permutations of the first `n` numbers, each once, in lexicographic order
and the identity first. -/
structure Enumerates (n : Nat) (positions : List (List Nat)) : Prop where
  mem_iff : ∀ σ, σ ∈ positions ↔ σ.Perm (List.range n)
  length : positions.length = n.factorial
  nodup : positions.Nodup
  ascending : positions.Pairwise (· < ·)
  first : positions.head? = some (List.range n)

theorem enumerates_orderings (n : Nat) : Enumerates n (orderings (List.range n)) := by
  have hlen : (List.range n).length = n := List.length_range
  have hsorted : (orderings (List.range n)).Pairwise (· < ·) :=
    pairwise_orderingsOfLength List.pairwise_lt_range
  refine ⟨fun σ => mem_orderings_iff, ?_, hsorted.imp fun h => ?_, hsorted,
    head?_orderingsOfLength rfl⟩
  · rw [orderings, length_orderingsOfLength rfl, hlen]
  · exact ne_of_lt h

end Wordcode
