import Wordcode.Proofs.Debugger.Course
import Wordcode.Proofs.Machine.Extent
import Wordcode.Proofs.Program.Language

/-!
# When a session can be shown

A program decides where its program counter goes. Wherever that is, the panels
of a session can be drawn, except for the listing: it starts at the program
counter if no line in front of it does, and a negative address counts from the
end of the memory. So a session can be refreshed exactly if its program counter
lies not further below 0 than its memory is long, and if the host can write the
numbers that are shown (`refresh_iff_inReach`). An empty memory has a listing too,
but there the program counter is still at 0.

What commands come to is derived from what an action performs: it ends with a
refresh, unless it changes nothing or a step ends at the memory limit.
-/

namespace Wordcode

namespace Debugger

open Listing Machine

/-- What a user can do to a session. -/
inductive Command where
  /-- Opens the debugger, with a run to the end if `autoRun` is set. -/
  | mount (autoRun : Bool)
  | act (action : Action)
  | submit (line : String)

/-- Carries out a command. -/
def obey (fuel : Nat) : Command → Debugger → Option (SessionResult Unit)
  | .mount autoRun, d => start fuel autoRun d
  | .act action, d => perform fuel action d
  | .submit line, d => some (submit line d)

/-- The session after commands, each given to what the one before has left, also
if that ended early. -/
def obeyAll (fuel : Nat) : List Command → Debugger → Option Debugger
  | [], d => some d
  | command :: commands, d => (obey fuel command d).bind fun r => obeyAll fuel commands (leaves r)

/-- There is a listing around the program counter of the session. -/
def InReach (d : Debugger) : Prop := Reaches d.machine.memory.cells d.machine.pc

instance (d : Debugger) : Decidable d.InReach := inferInstanceAs (Decidable (Reaches _ _))

/-- What a command comes to on a session: it ends early if there is no listing, and
then for want of a listing or at the memory limit. Where digits are limited, it also
ends early at a number that cannot be written or read. -/
def Shown (d : Debugger) : SessionResult Unit → Prop
  | .ok () e => e = d ∨ e.InReach
  | .error (.unlisted error) e => ¬ e.InReach ∧ error = whyNot e.machine.pc
  | .error .memoryLimit _ => True
  | .error (.tooManyDigits _) e | .error (.unread _) e => e.digitLimit ≠ none

variable {fuel : Nat} {d e : Debugger} {history : List Machine} {pause : Pause}
  {command : Command} {commands : List Command} {r : SessionResult Unit}

theorem Shown.of_inReach (h : Shown e r) (he : e.InReach) : Shown d r := by
  cases r with
  | ok u f =>
    refine .inr ?_
    rcases h with rfl | h
    · exact he
    · exact h
  | error error f => cases error <;> exact h

/-! ## Refreshing -/

theorem listed_iff_inReach (hd : d.machine.Placed) : Listed d.machine ↔ d.InReach := by
  refine ⟨fun h => ?_, .inr⟩
  rcases h with hsize | h
  · rcases hd with hpos | hpc
    · exact absurd hpos (by omega)
    · exact reaches_of_nonneg hpc
  · exact h

theorem digitLimit_ne_none (h : ¬ d.Writable) : d.digitLimit ≠ none :=
  mt writable_of_none h

/-- A refresh comes to a listing exactly if there is one. -/
theorem shown_refresh (hd : d.machine.Placed) : Shown e (refresh d) := by
  have hr := refreshes d
  generalize refresh d = r at hr
  cases hr with
  | drawn hl => exact .inr ((listed_iff_inReach hd).1 hl)
  | unlisted hl => exact ⟨fun hr => hl ((listed_iff_inReach hd).2 hr), rfl⟩
  | unwritten hw =>
    show d.digitLimit ≠ none
    exact digitLimit_ne_none hw

theorem shown_toggleBreakpoint (hd : d.machine.Placed) : Shown d (toggleBreakpoint d) := by
  obtain ⟨breakpoints, ⟨h, -, screen, ht⟩ | ⟨h, ht⟩ | ⟨h, ht⟩⟩ := toggleBreakpoint_cases (d := d)
  · rw [ht]
    exact .inr ((listed_iff_inReach hd).1 h)
  · rw [ht]
    exact ⟨fun hr => h ((listed_iff_inReach hd).2 hr), rfl⟩
  · rw [ht]
    show d.digitLimit ≠ none
    exact digitLimit_ne_none fun hw => h hw.listing

theorem refresh_ok_iff (hd : d.machine.Placed) :
    (∃ e, refresh d = .ok () e) ↔ d.InReach ∧ d.Writable := by
  rw [← listed_iff_inReach hd]
  have hr := refreshes d
  generalize refresh d = r at hr
  cases hr with
  | drawn hl hw => exact iff_of_true ⟨_, rfl⟩ ⟨hl, hw⟩
  | unlisted hl => exact iff_of_false (by simp) fun h => hl h.1
  | unwritten hw => exact iff_of_false (by simp) fun h => hw h.2

theorem toggleBreakpoint_ok_iff (hd : d.machine.Placed) :
    (∃ e, toggleBreakpoint d = .ok () e) ↔ d.InReach ∧ d.WritesListing := by
  rw [← listed_iff_inReach hd]
  obtain ⟨breakpoints, ⟨hl, hw, screen, ht⟩ | ⟨h, ht⟩ | ⟨h, ht⟩⟩ :=
    toggleBreakpoint_cases (d := d)
  · exact iff_of_true ⟨_, ht⟩ ⟨hl, hw⟩
  · exact iff_of_false (by simp [ht]) fun hl => h hl.1
  · exact iff_of_false (by simp [ht]) fun hl => h hl.2

/-! ## Commands -/

theorem kept_placed : Kept Placed where
  after := Placed.after
  drained := id

/-- What a line can come to. -/
inductive Submits (d : Debugger) : SessionResult Unit → Prop
  /-- It holds nothing. -/
  | idles : Submits d (.ok () d)
  /-- It is refused. -/
  | refuses (message : String) : Submits d (report message d)
  /-- It holds inputs. -/
  | queues (values : List Int) :
    Submits d (refresh { d with machine := d.machine.addInputs values })
  /-- It holds a number that cannot be read. -/
  | fails (error : Program.ReadError) (hlimit : d.digitLimit ≠ none) :
    Submits d (.error (.unread error) d)

theorem submits (line : String) (d : Debugger) : Submits d (submit line d) := by
  cases hline : (trimBlanks line).isEmpty with
  | true =>
    rw [submit, hline]
    exact .idles
  | false =>
    have hsubmit : submit line d = enter (Program.read d.digitLimit (trimBlanks line)) d := by
      rw [submit, hline]
      rfl
    rw [hsubmit]
    cases hread : Program.read d.digitLimit (trimBlanks line) with
    | ok values => exact .queues values
    | error error =>
      cases error with
      | tooManyDigits e => exact .fails _ (Program.limit_ne_none_of_read hread)
      | stops place => exact .refuses _
      | unfinished => exact .refuses _

theorem Performs.shown (h : Performs d history r) (hd : d.machine.Placed) : Shown d r := by
  cases h with
  | rests h => exact shown_refresh (h.keep kept_placed hd)
  | @ends e _ pause n h hm ht =>
    have hn : n.Placed := by
      rw [(ends_of_tick hm ht).1]
      exact (h.keep kept_placed hd).after
    cases pause with
    | rest => exact shown_refresh hn
    | failed failure =>
      cases failure with
      | fault f =>
        rw [conclude, report_eq]
        exact shown_refresh hn
      | memoryLimit => trivial
  | idles => exact .inl rfl
  | marks => exact shown_toggleBreakpoint hd

theorem start_cases {autoRun : Bool} (h : start fuel autoRun d = some r) :
    r = refresh d ∨ ∃ e, refresh d = .ok () e ∧ perform fuel .runToEnd e = some r := by
  unfold start at h
  split at h
  · next hr =>
    cases h
    exact .inl hr.symm
  · next e hr =>
    cases autoRun with
    | false =>
      cases h
      exact .inl hr.symm
    | true => exact .inr ⟨e, hr, h⟩

/-- A command is shown, and leaves the machine where it is known to be. -/
theorem obey_cases (h : obey fuel command d = some r) (hd : d.machine.Placed) :
    Shown d r ∧ (leaves r).machine.Placed := by
  have hrefresh : ∀ e : Debugger, e.machine.Placed →
      Shown d (refresh e) ∧ (leaves (refresh e)).machine.Placed := fun e he =>
    ⟨shown_refresh he, by rw [leaves_refresh.1]; exact kept_placed.drained he⟩
  cases command with
  | mount autoRun =>
    obtain rfl | ⟨e, hr, hp⟩ := start_cases h
    · exact hrefresh d hd
    · have he : e.machine.Placed := by
        rw [(of_refresh hr).1]
        exact kept_placed.drained hd
      -- The first refresh has succeeded, so a run that does nothing ends in reach as well.
      have hin : e.InReach := by
        have hin : d.InReach := ((refresh_ok_iff hd).1 ⟨e, hr⟩).1
        rw [InReach, (of_refresh hr).1]
        exact hin
      have hperform := performs hp
      exact ⟨(hperform.shown he).of_inReach hin, hperform.keep kept_placed he⟩
  | act action =>
    have hperform := performs h
    exact ⟨hperform.shown hd, hperform.keep kept_placed hd⟩
  | submit line =>
    obtain rfl : submit line d = r := Option.some.inj h
    have hs := submits line d
    generalize submit line d = r at hs
    cases hs with
    | idles => exact ⟨.inl rfl, hd⟩
    | refuses message => exact hrefresh { d with outputLines := _ } hd
    | queues values => exact hrefresh { d with machine := d.machine.addInputs values } hd
    | fails error hlimit => exact ⟨hlimit, hd⟩

theorem placed_of_obeyAll (h : obeyAll fuel commands d = some e) (hd : d.machine.Placed) :
    e.machine.Placed := by
  induction commands generalizing d with
  | nil =>
    cases h
    exact hd
  | cons command commands ih =>
    obtain ⟨r, hr, hrest⟩ := Option.bind_eq_some_iff.1 h
    exact ih hrest (obey_cases hr hd).2

theorem digitLimit_of_obey (h : obey fuel command d = some r) :
    (leaves r).digitLimit = d.digitLimit := by
  cases command with
  | mount autoRun =>
    obtain rfl | ⟨e, hr, hp⟩ := start_cases h
    · exact leaves_refresh.2.2
    · have hl := (leaves_refresh (d := d)).2.2
      rw [hr] at hl
      exact (performs hp).digitLimit_eq.trans hl
  | act action => exact (performs h).digitLimit_eq
  | submit line =>
    obtain rfl : submit line d = r := Option.some.inj h
    have hs := submits line d
    generalize submit line d = r at hs
    cases hs with
    | idles => rfl
    | refuses message => exact leaves_refresh.2.2
    | queues values => exact leaves_refresh.2.2
    | fails => rfl

theorem digitLimit_of_obeyAll (h : obeyAll fuel commands d = some e) :
    e.digitLimit = d.digitLimit := by
  induction commands generalizing d with
  | nil =>
    cases h
    rfl
  | cons command commands ih =>
    obtain ⟨r, hr, hrest⟩ := Option.bind_eq_some_iff.1 h
    exact (ih hrest).trans (digitLimit_of_obey hr)

/-- Whatever a program and a user do, what is shown can be brought up to date
exactly if the program counter lies in the memory, or behind it, or not further
below 0 than the memory is long, and if the host can write the numbers that are
shown; it can write all of them if it does not limit digits. The same holds of
marking a place, and of each further command: it ends early for want of a listing
only if it leaves the program counter below that. -/
theorem refresh_iff_inReach (limit : DigitLimit) (program inputs : List Int) (verbose : Bool)
    (fuel : Nat) (commands : List Command) {d : Debugger}
    (h : obeyAll fuel commands
      { attach (load program inputs verbose) with digitLimit := limit } = some d) :
    ((∃ e, refresh d = .ok () e) ↔ d.InReach ∧ d.Writable) ∧
    ((∃ e, toggleBreakpoint d = .ok () e) ↔ d.InReach ∧ d.WritesListing) ∧
    (limit = none → d.Writable ∧ d.WritesListing) ∧
    ∀ command r, obey fuel command d = some r → Shown d r := by
  have hd : d.machine.Placed := placed_of_obeyAll h (placed_load program inputs verbose)
  refine ⟨refresh_ok_iff hd, toggleBreakpoint_ok_iff hd, fun hlimit => ?_,
    fun command r hr => (obey_cases hr hd).1⟩
  have hw : d.Writable := writable_of_none ((digitLimit_of_obeyAll h).trans hlimit)
  exact ⟨hw, hw.listing⟩

/-- A jump to the address of the first word, counted from the end: there is a listing. -/
theorem refresh_iff_inReach_below_zero : ∃ d,
    obeyAll 1 [.act (.step 1)] (attach (load [1105, 1, -3] [] false)) = some d ∧
    d.machine.pc = -3 ∧ d.InReach ∧ ∃ e, refresh d = .ok () e := by
  refine ⟨_, rfl, by decide +kernel, by decide +kernel, ?_⟩
  obtain ⟨hrefresh, -, hwrites, -⟩ :=
    refresh_iff_inReach none [1105, 1, -3] [] false 1 [.act (.step 1)] rfl
  exact hrefresh.2 ⟨by decide +kernel, (hwrites rfl).1⟩

/-- A jump further below 0: the step meets no fault, and what it has done cannot be shown. -/
theorem refresh_fails_below_memory : ∃ e,
    obey 1 (.act (.step 1)) (attach (load [1105, 1, -100] [] false)) =
      some (.error (.unlisted .noWord) e) ∧
    e.machine.pc = -100 ∧ e.machine.memory.size = 3 ∧ e.machine.fault = none := by
  obtain ⟨r, hr⟩ : ∃ r, obey 1 (.act (.step 1)) (attach (load [1105, 1, -100] [] false)) = some r :=
    ⟨_, rfl⟩
  have hleaves : (obey 1 (.act (.step 1)) (attach (load [1105, 1, -100] [] false))).map
      (fun r => (error? r, (leaves r).machine.pc, (leaves r).machine.memory.size,
        (leaves r).machine.fault)) = some (some (.unlisted .noWord), -100, 3, none) := by
    decide +kernel
  rw [hr, Option.map_some, Option.some.injEq] at hleaves
  simp only [Prod.mk.injEq] at hleaves
  obtain ⟨herror, hrest⟩ := hleaves
  exact ⟨leaves r, hr.trans (congrArg some (eq_error_of_error? herror)), hrest⟩

end Debugger

end Wordcode
