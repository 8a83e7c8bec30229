import Wordcode.Loop

/-!
# Loops, round by round

A loop that ends has gone through some states, and in the last of them its
round yielded the result (`exists_stateAfter_of_loop`). `visited` lists them. What
every round keeps, together with the states visited so far, holds of every
state that the loop comes to (`stateAfter_keep`).

Two loops are compared round by round: if their rounds look alike through a view, or
keep a relation of their states, so do their results (`loop_map_congr`,
`loop_mirrors`).
-/

namespace Wordcode

variable {σ ρ : Type} {next : σ → Progress σ ρ} {k n : Nat} {s t : σ} {r : ρ}

/-- The state after `k` rounds, unless the loop ends before. -/
def stateAfter (next : σ → Progress σ ρ) : Nat → σ → Option σ
  | 0, s => some s
  | k + 1, s =>
    match next s with
    | .again s => stateAfter next k s
    | .done _ => none

/-- The states in which the first `fuel` rounds find a loop. -/
def visited (next : σ → Progress σ ρ) : Nat → σ → List σ
  | 0, _ => []
  | fuel + 1, s =>
    match next s with
    | .again t => s :: visited next fuel t
    | .done _ => [s]

theorem stateAfter_zero : stateAfter next 0 s = some s := rfl

theorem stateAfter_succ_of_again (h : next s = .again t) :
    stateAfter next (k + 1) s = stateAfter next k t := by
  simp only [stateAfter, h]

theorem stateAfter_succ_of_done (h : next s = .done r) : stateAfter next (k + 1) s = none := by
  simp only [stateAfter, h]

theorem visited_zero : visited next 0 s = [] := rfl

theorem visited_succ_of_again (h : next s = .again t) :
    visited next (k + 1) s = s :: visited next k t := by
  simp only [visited, h]

theorem visited_succ_of_done (h : next s = .done r) : visited next (k + 1) s = [s] := by
  simp only [visited, h]

/-- After some rounds a loop goes on from the state they lead to. -/
theorem loop_add_of_stateAfter (h : stateAfter next k s = some t) :
    loop next (k + n) s = loop next n t := by
  induction k generalizing s with
  | zero =>
    cases h
    rw [Nat.zero_add]
  | succ k ih =>
    cases hs : next s with
    | again s' =>
      rw [stateAfter_succ_of_again hs] at h
      rw [Nat.succ_add, loop_succ_of_again hs, ih h]
    | done r =>
      rw [stateAfter_succ_of_done hs] at h
      cases h

theorem stateAfter_add_of_stateAfter (h : stateAfter next k s = some t) :
    stateAfter next (k + n) s = stateAfter next n t := by
  induction k generalizing s with
  | zero =>
    cases h
    rw [Nat.zero_add]
  | succ k ih =>
    cases hs : next s with
    | again s' =>
      rw [stateAfter_succ_of_again hs] at h
      rw [Nat.succ_add, stateAfter_succ_of_again hs, ih h]
    | done r =>
      rw [stateAfter_succ_of_done hs] at h
      cases h

theorem visited_succ_of_stateAfter (h : stateAfter next k s = some t) :
    visited next (k + 1) s = visited next k s ++ [t] := by
  induction k generalizing s with
  | zero =>
    cases h
    cases ht : next t with
    | again s' => rw [visited_succ_of_again ht, visited_zero, visited_zero, List.nil_append]
    | done r => rw [visited_succ_of_done ht, visited_zero, List.nil_append]
  | succ k ih =>
    cases hs : next s with
    | again s' =>
      rw [stateAfter_succ_of_again hs] at h
      rw [visited_succ_of_again hs, visited_succ_of_again hs, ih h, List.cons_append]
    | done r =>
      rw [stateAfter_succ_of_done hs] at h
      cases h

theorem length_visited_of_stateAfter (h : stateAfter next k s = some t) :
    (visited next k s).length = k := by
  induction k generalizing s with
  | zero => rfl
  | succ k ih =>
    cases hs : next s with
    | again s' =>
      rw [stateAfter_succ_of_again hs] at h
      rw [visited_succ_of_again hs, List.length_cons, ih h]
    | done r =>
      rw [stateAfter_succ_of_done hs] at h
      cases h

theorem loop_eq_none_of_stateAfter (h : stateAfter next k s = some t) : loop next k s = none := by
  have hk : loop next (k + 0) s = loop next 0 t := loop_add_of_stateAfter h
  exact hk

theorem exists_stateAfter_of_loop_eq_none (h : loop next k s = none) :
    ∃ t, stateAfter next k s = some t := by
  induction k generalizing s with
  | zero => exact ⟨s, rfl⟩
  | succ k ih =>
    cases hs : next s with
    | again s' =>
      rw [loop_succ_of_again hs] at h
      rw [stateAfter_succ_of_again hs]
      exact ih h
    | done r =>
      rw [loop_succ_of_done hs] at h
      cases h

/-- A loop that ends has come to a state in which its round ended it. -/
theorem exists_stateAfter_of_loop (h : loop next n s = some r) :
    ∃ k t, k < n ∧ stateAfter next k s = some t ∧ next t = .done r ∧
      visited next n s = visited next k s ++ [t] := by
  induction n generalizing s with
  | zero => cases h
  | succ n ih =>
    cases hs : next s with
    | again s' =>
      rw [loop_succ_of_again hs] at h
      obtain ⟨k, t, hk, ht, hr, hv⟩ := ih h
      refine ⟨k + 1, t, Nat.succ_lt_succ hk, ?_, hr, ?_⟩
      · rw [stateAfter_succ_of_again hs, ht]
      · rw [visited_succ_of_again hs, visited_succ_of_again hs, hv, List.cons_append]
    | done r' =>
      rw [loop_succ_of_done hs] at h
      cases h
      exact ⟨0, s, Nat.succ_pos n, rfl, hs, visited_succ_of_done hs⟩

/-- A loop whose rounds go on as those of another goes through the same states. -/
theorem stateAfter_congr {next' : σ → Progress σ ρ}
    (hn : ∀ s t, next s = .again t → next' s = .again t) (h : stateAfter next k s = some t) :
    stateAfter next' k s = some t := by
  induction k generalizing s with
  | zero => exact h
  | succ k ih =>
    cases hs : next s with
    | again s' =>
      rw [stateAfter_succ_of_again hs] at h
      rw [stateAfter_succ_of_again (hn s s' hs)]
      exact ih h
    | done r =>
      rw [stateAfter_succ_of_done hs] at h
      cases h

/-- What a round yields, seen through a view of the states and one of the results. -/
def Progress.map {σ' ρ' : Type} (f : σ → σ') (g : ρ → ρ') : Progress σ ρ → Progress σ' ρ'
  | .again s => .again (f s)
  | .done r => .done (g r)

/-- Loops whose rounds look alike look alike. -/
theorem loop_map_congr {σ' ρ' : Type} {f : σ → σ'} {g : ρ → ρ'}
    (hn : ∀ s t, f s = f t → (next s).map f g = (next t).map f g) (h : f s = f t) :
    (loop next n s).map g = (loop next n t).map g := by
  induction n generalizing s t with
  | zero => rfl
  | succ n ih =>
    have hst := hn s t h
    cases hs : next s with
    | again s' =>
      cases ht : next t with
      | again t' =>
        rw [hs, ht] at hst
        rw [loop_succ_of_again hs, loop_succ_of_again ht]
        exact ih (Progress.again.inj hst)
      | done q =>
        rw [hs, ht] at hst
        cases hst
    | done r =>
      cases ht : next t with
      | again t' =>
        rw [hs, ht] at hst
        cases hst
      | done q =>
        rw [hs, ht] at hst
        rw [loop_succ_of_done hs, loop_succ_of_done ht]
        exact congrArg some (Progress.done.inj hst)

/-- A loop whose rounds come to what those of another do, seen through a view of the
results, in all states that the other visits. -/
theorem loop_of_visited {ρ' : Type} {next' : σ → Progress σ ρ'} {g : ρ → ρ'}
    (h : ∀ t ∈ visited next n s, next' t = (next t).map id g) :
    loop next' n s = (loop next n s).map g := by
  induction n generalizing s with
  | zero => rfl
  | succ n ih =>
    cases hs : next s with
    | again s' =>
      rw [visited_succ_of_again hs, List.forall_mem_cons] at h
      have hs' : next' s = .again s' := by rw [h.1, hs]; rfl
      rw [loop_succ_of_again hs, loop_succ_of_again hs']
      exact ih h.2
    | done r =>
      rw [visited_succ_of_done hs, List.forall_mem_singleton] at h
      have hs' : next' s = .done (g r) := by rw [h, hs]; rfl
      rw [loop_succ_of_done hs, loop_succ_of_done hs']
      rfl

/-- Where it does so up to a state in which it ends, it ends there. -/
theorem loop_of_visited_append {ρ' : Type} {next' : σ → Progress σ ρ'} {g : ρ → ρ'} {r' : ρ'}
    {before after : List σ} (hv : visited next n s = before ++ t :: after)
    (h : ∀ u ∈ before, next' u = (next u).map id g) (ht : next' t = .done r') :
    loop next' n s = some r' := by
  induction before generalizing s n with
  | nil =>
    cases n with
    | zero => cases hv
    | succ n =>
      obtain rfl : s = t := by
        cases hs : next s with
        | again s' => exact (List.cons.inj ((visited_succ_of_again hs).symm.trans hv)).1
        | done r => exact (List.cons.inj ((visited_succ_of_done hs).symm.trans hv)).1
      exact loop_succ_of_done ht
  | cons u before ih =>
    cases n with
    | zero => cases hv
    | succ n =>
      cases hs : next s with
      | again s' =>
        obtain ⟨rfl, hrest⟩ := List.cons.inj ((visited_succ_of_again hs).symm.trans hv)
        obtain ⟨hu, hbefore⟩ := List.forall_mem_cons.1 h
        have hs' : next' s = .again s' := by rw [hu, hs]; rfl
        rw [loop_succ_of_again hs']
        exact ih hrest hbefore
      | done r =>
        have hnil := (List.cons.inj ((visited_succ_of_done hs).symm.trans hv)).2
        cases before <;> cases hnil

/-- What a round keeps, together with the states visited, holds after rounds. -/
theorem stateAfter_keep {P : List σ → σ → Prop} {l : List σ}
    (hP : ∀ l s t, P l s → next s = .again t → P (l ++ [s]) t) (hs : P l s)
    (h : stateAfter next k s = some t) : P (l ++ visited next k s) t := by
  induction k generalizing l s with
  | zero =>
    cases h
    rw [visited_zero, List.append_nil]
    exact hs
  | succ k ih =>
    cases hn : next s with
    | again s' =>
      rw [stateAfter_succ_of_again hn] at h
      have hk := ih (hP l s s' hs hn) h
      rw [List.append_assoc] at hk
      rw [visited_succ_of_again hn]
      exact hk
    | done r =>
      rw [stateAfter_succ_of_done hn] at h
      cases h

theorem stateAfter_invariant {P : σ → Prop} (hP : ∀ s t, P s → next s = .again t → P t) (hs : P s)
    (h : stateAfter next k s = some t) : P t :=
  @stateAfter_keep _ _ next k s t (fun _ => P) [] (fun _ => hP) hs h

/-- What each round keeps holds of all states that a loop visits. -/
theorem forall_mem_visited {P : σ → Prop} (hP : ∀ s t, P s → next s = .again t → P t) (hs : P s) :
    ∀ t ∈ visited next k s, P t := by
  induction k generalizing s with
  | zero => exact List.forall_mem_nil _
  | succ k ih =>
    cases h : next s with
    | again t =>
      rw [visited_succ_of_again h]
      exact List.forall_mem_cons.2 ⟨hs, ih (hP s t hs h)⟩
    | done r =>
      rw [visited_succ_of_done h]
      exact List.forall_mem_singleton.2 hs

/-! ## Loops side by side -/

section Mirrors

variable {σ' ρ' α β : Type} {next' : σ' → Progress σ' ρ'} {S : σ → σ' → Prop}
  {exempt : ρ → Prop} {Q : ρ → ρ' → Prop} {x : Option ρ} {y : Option ρ'}

/-- Both answers are missing, or both are there and related by `Q`. Where the first
is `exempt` nothing is said of the second. -/
inductive Mirrors (exempt : ρ → Prop) (Q : ρ → ρ' → Prop) : Option ρ → Option ρ' → Prop
  | exempt {r : ρ} {y : Option ρ'} (h : exempt r) : Mirrors exempt Q (some r) y
  | none : Mirrors exempt Q none none
  | some {r : ρ} {r' : ρ'} (h : Q r r') : Mirrors exempt Q (some r) (some r')

/-- Both rounds go on with related states, or both end with related results, unless
the first ends with an exempt one. -/
inductive Progress.Mirrors (S : σ → σ' → Prop) (exempt : ρ → Prop) (Q : ρ → ρ' → Prop) :
    Progress σ ρ → Progress σ' ρ' → Prop
  | exempt {r : ρ} {p : Progress σ' ρ'} (h : exempt r) : Mirrors S exempt Q (.done r) p
  | again {s : σ} {s' : σ'} (h : S s s') : Mirrors S exempt Q (.again s) (.again s')
  | done {r : ρ} {r' : ρ'} (h : Q r r') : Mirrors S exempt Q (.done r) (.done r')

/-- Loops whose rounds mirror each other do so. -/
theorem loop_mirrors (hn : ∀ s s', S s s' → (next s).Mirrors S exempt Q (next' s'))
    {s' : σ'} (h : S s s') : Mirrors exempt Q (loop next n s) (loop next' n s') := by
  induction n generalizing s s' with
  | zero => exact .none
  | succ n ih =>
    have hr := hn s s' h
    cases hs : next s with
    | again t =>
      rw [hs] at hr
      rw [loop_succ_of_again hs]
      cases hs' : next' s' with
      | again t' =>
        rw [hs'] at hr
        cases hr with
        | again ht =>
          rw [loop_succ_of_again hs']
          exact ih ht
      | done r' =>
        rw [hs'] at hr
        cases hr
    | done r =>
      rw [hs] at hr
      rw [loop_succ_of_done hs]
      cases hr' : next' s' with
      | again t' =>
        rw [hr'] at hr
        cases hr with
        | exempt hbad => exact .exempt hbad
      | done r' =>
        rw [hr'] at hr
        rw [loop_succ_of_done hr']
        cases hr with
        | exempt hbad => exact .exempt hbad
        | done hq => exact .some hq

namespace Mirrors

variable {exempt' : α → Prop} {Q' : α → β → Prop}

/-- What follows an exempt answer is exempt, and what follows related answers mirrors
each other. -/
theorem bind {f : ρ → Option α} {g : ρ' → Option β} (h : Mirrors exempt Q x y)
    (hexempt : ∀ r, exempt r → ∃ a, f r = Option.some a ∧ exempt' a)
    (hq : ∀ r r', Q r r' → Mirrors exempt' Q' (f r) (g r')) :
    Mirrors exempt' Q' (x.bind f) (y.bind g) := by
  cases h with
  | @exempt r y hr =>
    obtain ⟨a, ha, hbad⟩ := hexempt r hr
    rw [Option.bind_some, ha]
    exact .exempt hbad
  | none => exact .none
  | some hr => exact hq _ _ hr

theorem map {f : ρ → α} {g : ρ' → β} (h : Mirrors exempt Q x y)
    (hexempt : ∀ r, exempt r → exempt' (f r)) (hq : ∀ r r', Q r r' → Q' (f r) (g r')) :
    Mirrors exempt' Q' (x.map f) (y.map g) := by
  cases h with
  | exempt hr => exact .exempt (hexempt _ hr)
  | none => exact .none
  | some hr => exact .some (hq _ _ hr)

/-- Unless the first answer is exempt, there is none or both are there. -/
theorem of_not_exempt (h : Mirrors exempt Q x y) (hx : ∀ r, x = Option.some r → ¬ exempt r) :
    x = Option.none ∧ y = Option.none ∨
      ∃ r r', x = Option.some r ∧ y = Option.some r' ∧ Q r r' := by
  cases h with
  | exempt hr => exact absurd hr (hx _ rfl)
  | none => exact .inl ⟨rfl, rfl⟩
  | some hr => exact .inr ⟨_, _, rfl, rfl, hr⟩

end Mirrors

end Mirrors

end Wordcode
