/-!
# Orderings

The orderings of a list are the lists that hold its elements in some order. They come by position:
first all that start with the first element, then all that start with the second, and so on, so that
the list itself comes first and a list of `n` elements has `n!` orderings, equal ones included.

`foldOrderings` visits the orderings without listing them, and stops where a visit fails.
-/

namespace Wordcode

/-- Each element of a list, with the others in their order. -/
def selections {α : Type} : List α → List (α × List α)
  | [] => []
  | a :: l => (a, l) :: (selections l).map fun (b, rest) => (b, a :: rest)

@[simp] theorem length_selections {α : Type} (l : List α) : (selections l).length = l.length := by
  induction l with
  | nil => rfl
  | cons a l ih => simp [selections, ih]

/-- The orderings of a list of `n` elements. -/
def orderingsOfLength {α : Type} : Nat → List α → List (List α)
  | 0, _ => [[]]
  | n + 1, l => (selections l).flatMap fun (a, rest) => (orderingsOfLength n rest).map (a :: ·)

/-- The orderings of a list. -/
def orderings {α : Type} (l : List α) : List (List α) := orderingsOfLength l.length l

/-- Folds over the orderings of a list of `n` elements, each behind the elements in `chosen`, which
are in reverse order. -/
def foldOrderingsFrom {α β : Type} {m : Type → Type} [Monad m] (f : β → List α → m β) :
    Nat → List α → List α → β → m β
  | 0, chosen, _, b => f b chosen.reverse
  | n + 1, chosen, l, b =>
    (selections l).foldlM (fun b (a, rest) => foldOrderingsFrom f n (a :: chosen) rest b) b

/-- Folds over the orderings of a list. -/
def foldOrderings {α β : Type} {m : Type → Type} [Monad m] (f : β → List α → m β) (b : β)
    (l : List α) : m β :=
  foldOrderingsFrom f l.length [] l b

/-- Folding over the orderings is folding over their list. -/
theorem foldOrderings_eq_foldlM {α β : Type} {m : Type → Type} [Monad m] [LawfulMonad m]
    (f : β → List α → m β) (b : β) (l : List α) :
    foldOrderings f b l = (orderings l).foldlM f b := by
  suffices h : ∀ n chosen (l : List α) b, foldOrderingsFrom f n chosen l b =
      ((orderingsOfLength n l).map (chosen.reverse ++ ·)).foldlM f b by
    simp [foldOrderings, orderings, h]
  intro n
  induction n with
  | zero =>
    intro chosen l b
    simp [foldOrderingsFrom, orderingsOfLength]
  | succ n ih =>
    intro chosen l b
    simp only [foldOrderingsFrom, orderingsOfLength, ih]
    induction selections l generalizing b with
    | nil => simp
    | cons s rest ihs =>
      rw [List.foldlM_cons, List.flatMap_cons, List.map_append, List.foldlM_append]
      simp only [← ihs, List.map_map, Function.comp_def, List.reverse_cons, List.append_assoc,
        List.singleton_append]

example : orderings [1, 2, 3] =
    [[1, 2, 3], [1, 3, 2], [2, 1, 3], [2, 3, 1], [3, 1, 2], [3, 2, 1]] := by decide

end Wordcode
