import Wordcode.Calling.Diagnostic
import Wordcode.Proofs.Calling.Result
import Wordcode.Proofs.Machine.Extends

/-!
# Calling a program with zeros behind it

Whether a program is called as it is or with zeros behind it, its results are the
same: its machine only has more memory (`runsAlike_halted`), also if arguments were
written into the program before (`patch_padded`). What is made of such calls follows
(`runsAlike_call`, `runsAlike_callWith`, `runsAlike_findPair`, `runsAlike_diagnose`).
-/

namespace Wordcode

variable {fuel : Nat} {p q : List Int}

/-- The host is exhausted: a run, or writing an argument, exceeds its limit. -/
def CallError.Exhausted (e : CallError) : Prop :=
  e = .interrupted (.failed .memoryLimit) ∨ e = .unpatched .tooLarge

/-- The program with `z` zeros behind it. -/
def Program.padded (p : List Int) (z : Nat) : List Int := p ++ List.replicate z 0

/-- The program `q` is `p` with zeros behind it. -/
def Program.Padded (p q : List Int) : Prop := ∃ z, q = padded p z

/-! ## Patches -/

namespace Program

variable {a v : Int} {overrides : List (Int × Int)}

/-- The patched programs are padded again, or cannot be patched for one reason. Where
the first exceeds the host's limit nothing is said of the other. -/
inductive PatchedAlike : Except PatchError (List Int) → Except PatchError (List Int) → Prop
  | exhausted {r : Except PatchError (List Int)} : PatchedAlike (.error .tooLarge) r
  | error {e : PatchError} : PatchedAlike (.error e) (.error e)
  | ok {p q : List Int} (h : Padded p q) : PatchedAlike (.ok p) (.ok q)

/-- Zeros that are filled in up to an address stand there already, or are followed by
those behind the program. -/
theorem patchWord_padded (h : Padded p q) (a v : Int) :
    PatchedAlike (patchWord p a v) (patchWord q a v) := by
  obtain ⟨z, rfl⟩ := h
  unfold patchWord padded
  by_cases hneg : a < 0
  · rw [if_pos hneg, if_pos hneg]
    exact .error
  by_cases hfar : paddingLimit < a + 1 - p.length
  · rw [if_neg hneg, if_pos hfar]
    exact .exhausted
  · have hnear : ¬ paddingLimit < a + 1 - (p ++ List.replicate z 0).length := by
      rw [List.length_append]
      omega
    rw [if_neg hneg, if_neg hfar, if_neg hneg, if_neg hnear]
    -- The word is set among the cells that the first program is filled up to.
    refine .ok ⟨z - (a.toNat + 1 - p.length), ?_⟩
    have hlt : a.toNat < (p ++ List.replicate (a.toNat + 1 - p.length) 0).length := by
      rw [List.length_append, List.length_replicate]
      omega
    have hzeros : z + (a.toNat + 1 - (p.length + z)) =
        a.toNat + 1 - p.length + (z - (a.toNat + 1 - p.length)) := by
      omega
    rw [padded, ← List.set_append_left _ _ hlt, List.append_assoc, List.append_assoc,
      List.replicate_append_replicate, List.replicate_append_replicate, List.length_append,
      List.length_replicate, hzeros]

theorem patch_padded (h : Padded p q) (overrides : List (Int × Int)) :
    PatchedAlike (patch p overrides) (patch q overrides) := by
  induction overrides generalizing p q with
  | nil => exact .ok h
  | cons override overrides ih =>
    obtain ⟨a, v⟩ := override
    have hword := patchWord_padded h a v
    rw [patch_cons, patch_cons]
    generalize patchWord p a v = r, patchWord q a v = r' at hword
    cases hword with
    | exhausted => exact .exhausted
    | error => exact .error
    | ok h => exact ih h

end Program

/-! ## Runs -/

theorem extends_load (h : Program.Padded p q) (inputs : List Int) (verbose : Bool) :
    (Machine.load p inputs verbose).Extends (Machine.load q inputs verbose) := by
  obtain ⟨z, rfl⟩ := h
  exact ⟨_, Memory.extends_ofList p z, rfl⟩

/-- The machines in which the two programs halt are one and one that extends it. -/
theorem runsAlike_halted (h : Program.Padded p q) (fuel : Nat) (inputs : List Int) :
    RunsAlike CallError.Exhausted Machine.Extends (halted fuel p inputs)
      (halted fuel q inputs) := fun journal => by
  have hload : { Machine.load p inputs journal.verbose with journal }.Extends
      { Machine.load q inputs journal.verbose with journal } := by
    obtain ⟨memory, hm, hq⟩ := extends_load h inputs journal.verbose
    exact ⟨memory, hm, congrArg (fun m : Machine => { m with journal }) hq⟩
  rw [run_halted, run_halted]
  refine (hload.run fuel).map ?_ ?_
  · rintro ⟨r, m⟩ hr
    obtain rfl : r = .error (.failed .memoryLimit) := hr
    exact ⟨_, rfl, .inl rfl⟩
  · rintro ⟨r, m⟩ ⟨r', n⟩ ⟨hr, hmn⟩
    obtain rfl : r = r' := hr
    obtain ⟨memory, hm, rfl⟩ := hmn
    cases r with
    | ok => exact .ok ⟨memory, hm, rfl⟩
    | error interrupt => exact .error

/-! ## Results -/

theorem runsAlike_call (h : Program.Padded p q) (fuel : Nat) (inputs : List Int) :
    RunsAlike CallError.Exhausted Eq (call fuel p inputs) (call fuel q inputs) :=
  (runsAlike_halted h fuel inputs).bind fun _ _ hmn =>
    .pure (congrArg Queue.toList hmn.outputs.symm)

theorem runsAlike_callWith (h : Program.Padded p q) (fuel : Nat) (noun verb : Int) :
    RunsAlike CallError.Exhausted Eq (callWith fuel p noun verb) (callWith fuel q noun verb) := by
  have hpatch := Program.patch_padded h [(nounAddress, noun), (verbAddress, verb)]
  unfold callWith
  generalize Program.patch p _ = r, Program.patch q _ = r' at hpatch
  cases hpatch with
  | exhausted => exact fun journal => .exempt ⟨_, rfl, .inr rfl⟩
  | error => exact .throw _
  | ok h => exact (runsAlike_halted h fuel []).bind fun _ _ hmn => .pure (hmn.peek 0).symm

theorem runsAlike_attempt (h : Program.Padded p q) (fuel : Nat) (noun verb : Int) :
    RunsAlike CallError.Exhausted Eq (attempt fuel p noun verb)
      (attempt fuel q noun verb) := fun journal => by
  rw [run_attempt, run_attempt]
  refine (runsAlike_callWith h fuel noun verb journal).map ?_ ?_
  · rintro ⟨r, journal'⟩ ⟨e, rfl, rfl | rfl⟩
    · exact ⟨_, rfl, .inl rfl⟩
    · exact ⟨_, rfl, .inr rfl⟩
  · intro r r' hends
    rw [hends.eq]
    exact .refl _

theorem runsAlike_findPairFrom (h : Program.Padded p q) (fuel : Nat) (target limit : Int)
    (remaining : Nat) :
    RunsAlike CallError.Exhausted Eq (findPairFrom fuel p target limit remaining)
      (findPairFrom fuel q target limit remaining) := by
  induction remaining with
  | zero => exact .refl _
  | succ remaining ih =>
    refine (runsAlike_attempt h fuel _ _).bind ?_
    rintro result _ rfl
    split
    · exact .refl _
    · exact ih

theorem runsAlike_findPair (h : Program.Padded p q) (fuel : Nat) (target limit : Int) :
    RunsAlike CallError.Exhausted Eq (findPair fuel p target limit)
      (findPair fuel q target limit) :=
  runsAlike_findPairFrom h fuel target limit _

theorem runsAlike_diagnose (h : Program.Padded p q) (fuel : Nat) (system : Int) :
    RunsAlike CallError.Exhausted Eq (diagnose fuel p system) (diagnose fuel q system) := by
  refine (runsAlike_call h fuel [system]).bind ?_
  rintro outputs _ rfl
  exact .refl _

end Wordcode
