import Wordcode.Calling.Arguments
import Wordcode.Proofs.Computation
import Wordcode.Proofs.Machine.Muted
import Wordcode.Proofs.Program.Patch

/-!
# What calls come to

A call runs a program on a fresh machine and looks at the machine in which it has
halted. Its result is that of a run of the machine (`run_view`), whatever was
reported before, as long as it does not look at the journal. So it is with all
outputs (`answers_call_iff`) and with the word at address 0 (`answers_callWith_iff`),
for the noun and the verb can always be written into the program (`patch_arguments`).
-/

namespace Wordcode

variable {α : Type} {fuel : Nat} {program inputs : List Int} {noun verb : Int}

/-! ## Runs -/

/-- What a call comes to once its run has ended, with what was reported. -/
def haltedAnswer : Except Interrupt Unit × Machine → Except CallError Machine × Journal
  | (.ok (), m) => (.ok m, m.journal)
  | (.error interrupt, m) => (.error (.interrupted interrupt), m.journal)

theorem run_halted (fuel : Nat) (program inputs : List Int) (journal : Journal) :
    (halted fuel program inputs).run.run journal =
      ({ Machine.load program inputs journal.verbose with journal }.run fuel).map haltedAnswer := by
  unfold halted
  simp only [ExceptT.run_mk, StateT.run]
  generalize Machine.run fuel _ = r
  rcases r with _ | ⟨_ | ⟨⟩, m⟩ <;> rfl

/-- What is made of the end of a run by a call that looks at the machine in this way. -/
def viewed (view : Machine → α) : Except Interrupt Unit × Machine → Except CallError α
  | (.ok (), m) => .ok (view m)
  | (.error interrupt, _) => .error (.interrupted interrupt)

/-- A call that does not look at the journal has the result of a run. -/
theorem run_view {view : Machine → α} (hview : ∀ m n, m.muted = n.muted → view m = view n)
    (verbose : Bool) (journal : Journal) :
    ((halted fuel program inputs >>= fun m => pure (view m)).run.run journal).map Prod.fst =
      ((Machine.load program inputs verbose).run fuel).map (viewed view) := by
  have hrun : ((halted fuel program inputs >>= fun m => pure (view m)).run.run journal).map
      Prod.fst = ({ Machine.load program inputs journal.verbose with journal }.run fuel).map
        (viewed view) := by
    rw [ExceptT.run_bind, StateT.run_bind, run_halted]
    generalize Machine.run fuel _ = r
    rcases r with _ | ⟨_ | ⟨⟩, m⟩ <;> rfl
  have hmuted : { Machine.load program inputs journal.verbose with journal }.muted =
      (Machine.load program inputs verbose).muted := rfl
  rw [hrun]
  refine Machine.map_congr_of_map ?_ (Machine.run_muted fuel hmuted)
  rintro ⟨r, m⟩ ⟨r', n⟩ h
  obtain ⟨hr, hmn⟩ := Prod.mk.inj h
  obtain rfl : r = r' := hr
  rcases r with _ | ⟨⟩
  · rfl
  · exact congrArg Except.ok (hview m n hmn)

/-! ## All outputs -/

theorem run_call (fuel : Nat) (program inputs : List Int) (verbose : Bool) (journal : Journal) :
    ((call fuel program inputs).run.run journal).map Prod.fst =
      ((Machine.load program inputs verbose).run fuel).map (viewed (·.outputs.toList)) :=
  run_view (fun _ _ h => congrArg (Queue.toList ∘ Machine.outputs) h) verbose journal

theorem deaf_call (fuel : Nat) (program inputs : List Int) : Deaf (call fuel program inputs) :=
  fun journal journal' => by rw [run_call _ _ _ false, run_call _ _ _ false]

theorem answers_call_iff {r : Except CallError (List Int)} (verbose : Bool) :
    Answers (call fuel program inputs) r ↔
      ((Machine.load program inputs verbose).run fuel).map (viewed (·.outputs.toList)) =
        some r := by
  rw [(deaf_call fuel program inputs).answers_iff (.empty false), run_call _ _ _ verbose]

/-! ## Two arguments -/

/-- The program with the noun and the verb written into it. -/
def patched (program : List Int) (noun verb : Int) : List Int :=
  (((Memory.ofList program).put nounAddress noun).put verbAddress verb).toList

/-- Every memory admits the addresses of the arguments. -/
theorem near_arguments :
    ∀ a ∈ [nounAddress, verbAddress], 0 ≤ a ∧ a < Memory.growthLimit := by decide

/-- The arguments can be written into any program. -/
theorem patch_arguments (program : List Int) (noun verb : Int) :
    Program.patch program [(nounAddress, noun), (verbAddress, verb)] =
      .ok (patched program noun verb) :=
  Program.patch_of_admits (Memory.admits_of_near near_arguments)

theorem run_callWith (fuel : Nat) (program : List Int) (noun verb : Int) (verbose : Bool)
    (journal : Journal) :
    ((callWith fuel program noun verb).run.run journal).map Prod.fst =
      ((Machine.load (patched program noun verb) [] verbose).run fuel).map
        (viewed (·.memory.peek 0)) := by
  unfold callWith
  rw [patch_arguments]
  exact run_view (fun _ _ h => congrArg (fun m : Machine => m.memory.peek 0) h) verbose journal

theorem deaf_callWith (fuel : Nat) (program : List Int) (noun verb : Int) :
    Deaf (callWith fuel program noun verb) :=
  fun journal journal' => by rw [run_callWith _ _ _ _ false, run_callWith _ _ _ _ false]

theorem answers_callWith_iff {r : Except CallError Int} (verbose : Bool) :
    Answers (callWith fuel program noun verb) r ↔
      ((Machine.load (patched program noun verb) [] verbose).run fuel).map
        (viewed (·.memory.peek 0)) = some r := by
  rw [(deaf_callWith fuel program noun verb).answers_iff (.empty false),
    run_callWith _ _ _ _ verbose]

/-- More fuel keeps the result. -/
theorem answers_callWith_mono {n : Nat} {r : Except CallError Int} (hn : fuel ≤ n)
    (h : Answers (callWith fuel program noun verb) r) :
    Answers (callWith n program noun verb) r := by
  obtain ⟨p, hp, hr⟩ := Option.map_eq_some_iff.1 ((answers_callWith_iff false).1 h)
  exact (answers_callWith_iff false).2 (Option.map_eq_some_iff.2 ⟨p, loop_mono hp hn, hr⟩)

/-- The run is the only thing that can go wrong. -/
theorem interrupted_of_answers {e : CallError}
    (h : Answers (callWith fuel program noun verb) (.error e)) :
    ∃ interrupt, e = .interrupted interrupt := by
  obtain ⟨⟨_ | ⟨⟩, m⟩, -, hr⟩ := Option.map_eq_some_iff.1 ((answers_callWith_iff false).1 h)
  · cases hr
    exact ⟨_, rfl⟩
  · cases hr

/-! ## Attempts -/

/-- What an attempt makes of the result of a call. -/
def attempted : Except CallError Int → Except CallError (Option Int)
  | .ok value => .ok (some value)
  | .error (.interrupted (.blocked _)) => .ok none
  | .error (.interrupted (.failed (.fault _))) => .ok none
  | .error e => .error e

theorem run_attempt (fuel : Nat) (program : List Int) (noun verb : Int) (journal : Journal) :
    (attempt fuel program noun verb).run.run journal =
      ((callWith fuel program noun verb).run.run journal).map (Prod.map attempted id) := by
  unfold attempt
  generalize callWith fuel program noun verb = x
  show _ = (x journal).map _
  simp only [ExceptT.run, bind, ExceptT.bind, ExceptT.mk, StateT.bind, StateT.run, tryCatch,
    tryCatchThe, MonadExceptOf.tryCatch, ExceptT.tryCatch]
  rcases x journal with _ | ⟨((_ | (_ | _)) | _ | _ | _ | _) | _, _⟩ <;> rfl

theorem deaf_attempt (fuel : Nat) (program : List Int) (noun verb : Int) :
    Deaf (attempt fuel program noun verb) := fun journal journal' => by
  rw [run_attempt, run_attempt]
  rcases (deaf_callWith fuel program noun verb).cases journal journal' with
    ⟨hj, hj'⟩ | ⟨r, k, k', hj, hj'⟩
  · rw [hj, hj']
  · rw [hj, hj']
    rfl

theorem answers_attempt_iff {a : Except CallError (Option Int)} :
    Answers (attempt fuel program noun verb) a ↔
      ∃ r, Answers (callWith fuel program noun verb) r ∧ a = attempted r := by
  rw [(deaf_attempt fuel program noun verb).answers_iff (.empty false), run_attempt]
  constructor
  · intro h
    rw [Option.map_map] at h
    obtain ⟨⟨r, journal⟩, hr, rfl⟩ := Option.map_eq_some_iff.1 h
    exact ⟨r, (deaf_callWith fuel program noun verb).answers hr, rfl⟩
  · rintro ⟨r, hr, rfl⟩
    obtain ⟨journal, hj⟩ := hr (.empty false)
    rw [hj]
    rfl

end Wordcode
