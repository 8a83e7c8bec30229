import Wordcode.Journal
import Wordcode.Proofs.Loop

/-!
# Computations that collect a journal

Whoever runs programs may fail, collects what was reported, and may not come to an
end. Two such computations run alike if from each journal they come to related
results and to the same journal (`RunsAlike`). Errors of the first may be exempt, and
then nothing is said of the second. Computations made in the same way from
computations that run alike do so (`RunsAlike.bind`, `RunsAlike.foldlM`). If the
results are even equal, so is all that can be seen of the two (`RunsAlike.agrees`).

What one computation comes to need not depend on the journal it is given (`Deaf`). Then
it has at most one result (`Answers`), and the results of two such computations, one
after the other, are those of the parts (`answers_bind_iff`).
-/

namespace Wordcode

variable {ε α β γ δ : Type} {exempt : ε → Prop} {Q : α → β → Prop} {R : γ → δ → Prop}

/-- The errors are the same or the values related, and so are the journals. -/
inductive EndsAlike (Q : α → β → Prop) : Except ε α × Journal → Except ε β × Journal → Prop
  | ok {a : α} {b : β} {journal : Journal} (h : Q a b) :
    EndsAlike Q (.ok a, journal) (.ok b, journal)
  | error {e : ε} {journal : Journal} : EndsAlike Q (.error e, journal) (.error e, journal)

theorem EndsAlike.refl (p : Except ε α × Journal) : EndsAlike Eq p p := by
  obtain ⟨e | a, journal⟩ := p
  · exact .error
  · exact .ok rfl

theorem EndsAlike.eq {p q : Except ε α × Journal} (h : EndsAlike Eq p q) : p = q := by
  cases h with
  | ok hab => rw [hab]
  | error => rfl

/-- The computation has failed with an exempt error. -/
def FailsExempt (exempt : ε → Prop) (p : Except ε α × Journal) : Prop :=
  ∃ e, p.1 = .error e ∧ exempt e

/-- From each journal both computations end alike, or neither ends, unless the first
fails with an exempt error. -/
def RunsAlike (exempt : ε → Prop) (Q : α → β → Prop) (x : ExceptT ε (StateT Journal Option) α)
    (y : ExceptT ε (StateT Journal Option) β) : Prop :=
  ∀ journal, Mirrors (FailsExempt exempt) (EndsAlike Q) (x.run.run journal) (y.run.run journal)

/-- From each journal the second computation comes to the same result and journal as
the first, or does not end either, unless the first fails with an exempt error. -/
def AgreesUnless (exempt : ε → Prop) (x y : ExceptT ε (StateT Journal Option) α) : Prop :=
  ∀ journal, (∀ e journal', x.run.run journal = some (.error e, journal') → ¬ exempt e) →
    y.run.run journal = x.run.run journal

namespace RunsAlike

variable {x : ExceptT ε (StateT Journal Option) α} {y : ExceptT ε (StateT Journal Option) β}

theorem pure {a : α} {b : β} (h : Q a b) : RunsAlike exempt Q (Pure.pure a) (Pure.pure b) :=
  fun _ => .some (.ok h)

theorem throw (e : ε) :
    RunsAlike exempt Q (MonadExcept.throw e) (MonadExcept.throw e) :=
  fun _ => .some .error

/-- A computation runs like itself. -/
theorem refl (x : ExceptT ε (StateT Journal Option) α) : RunsAlike exempt Eq x x :=
  fun journal => by
  cases x.run.run journal with
  | none => exact .none
  | some p => exact .some (.refl p)

theorem bind {f : α → ExceptT ε (StateT Journal Option) γ}
    {g : β → ExceptT ε (StateT Journal Option) δ} (h : RunsAlike exempt Q x y)
    (hfg : ∀ a b, Q a b → RunsAlike exempt R (f a) (g b)) :
    RunsAlike exempt R (x >>= f) (y >>= g) := fun journal => by
  rw [ExceptT.run_bind, StateT.run_bind, ExceptT.run_bind, StateT.run_bind]
  refine (h journal).bind ?_ ?_
  · rintro ⟨r, journal'⟩ ⟨e, rfl, he⟩
    exact ⟨_, rfl, e, rfl, he⟩
  · rintro p q hpq
    cases hpq with
    | ok hab => exact hfg _ _ hab _
    | error => exact .some .error

theorem foldlM {f g : γ → α → ExceptT ε (StateT Journal Option) γ}
    (h : ∀ c a, RunsAlike exempt Eq (f c a) (g c a)) (l : List α) (c : γ) :
    RunsAlike exempt Eq (l.foldlM f c) (l.foldlM g c) := by
  induction l generalizing c with
  | nil => exact .refl _
  | cons a l ih =>
    rw [List.foldlM_cons, List.foldlM_cons]
    refine (h c a).bind ?_
    rintro b _ rfl
    exact ih b

/-- Computations that run alike, with the same values, agree. -/
theorem agrees {y : ExceptT ε (StateT Journal Option) α} (h : RunsAlike exempt Eq x y) :
    AgreesUnless exempt x y := fun journal hx => by
  have hexempt : ∀ p, x.run.run journal = some p → ¬ FailsExempt exempt p := by
    rintro ⟨r, journal'⟩ hp ⟨e, rfl, he⟩
    exact hx e journal' hp he
  rcases (h journal).of_not_exempt hexempt with ⟨hx, hy⟩ | ⟨p, q, hx, hy, hpq⟩
  · rw [hx, hy]
  · rw [hx, hy, hpq.eq]

end RunsAlike

/-! ## Results -/

section Results

variable {x : ExceptT ε (StateT Journal Option) α} {f : α → ExceptT ε (StateT Journal Option) γ}
  {r r' : Except ε α} {s : Except ε γ} {journal journal' : Journal}

/-- Whatever was reported before, the computation comes to the result. -/
def Answers (x : ExceptT ε (StateT Journal Option) α) (r : Except ε α) : Prop :=
  ∀ journal, ∃ journal', x.run.run journal = some (r, journal')

/-- What was reported before decides neither whether the computation ends nor its
result. -/
def Deaf (x : ExceptT ε (StateT Journal Option) α) : Prop :=
  ∀ journal journal' : Journal, (x.run.run journal).map Prod.fst = (x.run.run journal').map Prod.fst

theorem Answers.unique (h : Answers x r) (h' : Answers x r') : r = r' := by
  obtain ⟨j, hj⟩ := h (.empty false)
  obtain ⟨j', hj'⟩ := h' (.empty false)
  cases hj.symm.trans hj'
  rfl

theorem Answers.iff_eq (h : Answers x r) : Answers x r' ↔ r' = r :=
  ⟨fun h' => h'.unique h, fun hr => hr ▸ h⟩

theorem answers_throw_iff {e : ε} :
    Answers (throw e : ExceptT ε (StateT Journal Option) α) r ↔ r = .error e :=
  Answers.iff_eq fun journal => ⟨journal, rfl⟩

namespace Deaf

theorem pure (a : α) : Deaf (Pure.pure a : ExceptT ε (StateT Journal Option) α) :=
  fun _ _ => rfl

theorem throw (e : ε) : Deaf (MonadExcept.throw e : ExceptT ε (StateT Journal Option) α) :=
  fun _ _ => rfl

/-- From two journals a computation does not end, or has the same result. -/
theorem cases (hx : Deaf x) (journal journal' : Journal) :
    x.run.run journal = none ∧ x.run.run journal' = none ∨
      ∃ r k k', x.run.run journal = some (r, k) ∧ x.run.run journal' = some (r, k') := by
  have hfst := hx journal journal'
  cases hj : x.run.run journal with
  | none =>
    rw [hj] at hfst
    exact .inl ⟨rfl, Option.map_eq_none_iff.1 hfst.symm⟩
  | some p =>
    rw [hj] at hfst
    obtain ⟨⟨r, k'⟩, hj', hr⟩ := Option.map_eq_some_iff.1 hfst.symm
    obtain rfl : r = p.1 := hr
    exact .inr ⟨p.1, p.2, k', rfl, hj'⟩

theorem answers_iff (hx : Deaf x) (journal : Journal) :
    Answers x r ↔ (x.run.run journal).map Prod.fst = some r := by
  constructor
  · intro h
    obtain ⟨journal', hj⟩ := h journal
    rw [hj, Option.map_some]
  · intro h journal'
    obtain ⟨⟨r', k⟩, hk, rfl⟩ := Option.map_eq_some_iff.1 ((hx journal' journal).trans h)
    exact ⟨k, hk⟩

/-- A result that a computation has once it has always. -/
theorem answers (hx : Deaf x) (h : x.run.run journal = some (r, journal')) : Answers x r :=
  (hx.answers_iff journal).2 (by rw [h, Option.map_some])

theorem bind (hx : Deaf x) (hf : ∀ a, Deaf (f a)) : Deaf (x >>= f) := fun journal journal' => by
  rw [ExceptT.run_bind, StateT.run_bind, StateT.run_bind]
  rcases hx.cases journal journal' with ⟨hj, hj'⟩ | ⟨_ | a, k, k', hj, hj'⟩
  · rw [hj, hj']
  · rw [hj, hj']
    rfl
  · rw [hj, hj']
    exact hf a k k'

end Deaf

theorem answers_bind_iff (hx : Deaf x) (hf : ∀ a, Deaf (f a)) :
    Answers (x >>= f) s ↔
      (∃ a, Answers x (.ok a) ∧ Answers (f a) s) ∨ ∃ e, Answers x (.error e) ∧ s = .error e := by
  constructor
  · intro h
    obtain ⟨journal', hs⟩ := h (.empty false)
    rw [ExceptT.run_bind, StateT.run_bind] at hs
    obtain ⟨⟨_ | a, k⟩, hk, hs⟩ := Option.bind_eq_some_iff.1 hs
    · cases hs
      exact .inr ⟨_, hx.answers hk, rfl⟩
    · exact .inl ⟨a, hx.answers hk, (hf a).answers hs⟩
  · rintro (⟨a, ha, hs⟩ | ⟨e, he, rfl⟩) journal
    · obtain ⟨k, hk⟩ := ha journal
      obtain ⟨journal', hj⟩ := hs k
      refine ⟨journal', ?_⟩
      rw [ExceptT.run_bind, StateT.run_bind, hk]
      exact hj
    · obtain ⟨k, hk⟩ := he journal
      refine ⟨k, ?_⟩
      rw [ExceptT.run_bind, StateT.run_bind, hk]
      rfl

end Results

end Wordcode
