import Wordcode.Proofs.Debugger.Refresh

/-!
# Every output once

An output of a program is queued by its machine, then a line of the output panel, and
then a line of the log. Refreshes move it on, and they come at different times: at the
end of an action, in the middle of a long run, and when an error is reported. They may
fail halfway, and so may the action.

Through all of this a session keeps account of the outputs (`Accounts`): the values in
the output panel and then those that are still queued are all that there have been, in
their order, and the log holds the first lines of the panel. A step, a refresh and a
line that tells of an error keep it so, and hence does whatever is made of them
(`Accounts.course`, `Accounts.performs`, `Accounts.obeyAll`).

A refresh takes all queued outputs from the machine before it writes the first one. Where
the host limits digits it writes those up to one that has too many, and then fails, so that
one and those behind it are neither queued any more nor shown. The account is therefore kept
of the batches that have been taken.
-/

namespace Wordcode

/-- The value that a line shows, unless it tells of an error. -/
def OutputLine.value? : OutputLine → Option Int
  | .value n => some n
  | .error _ => none

namespace Debugger

open Machine

/-- The texts of the lines that show values. -/
def valueTexts (d : Debugger) : List String :=
  (d.outputLines.toList.filter (·.value?.isSome)).map OutputLine.text

/-- The machine as each step finds it that is made for a command. -/
def commandHistory (fuel : Nat) (d : Debugger) : Command → List Machine
  | .mount autoRun =>
    match refresh d with
    | .ok _ e => if autoRun then actionHistory fuel e .runToEnd else []
    | .error _ _ => []
  | .act action => actionHistory fuel d action
  | .submit _ => []

/-- The machine as each step finds it that is made for commands. -/
def commandsHistory (fuel : Nat) (d : Debugger) : List Command → List Machine
  | [] => []
  | command :: commands =>
    commandHistory fuel d command ++
      match obey fuel command d with
      | none => []
      | some r => commandsHistory fuel (leaves r) commands

/-- On the way through commands to a session, and then through an action, it passes through
another session, with the history of the steps that were made by then. -/
inductive Passes (fuel : Nat) (d : Debugger) : List Machine → Debugger → Prop
  /-- The commands are carried out. -/
  | after {commands : List Command} {e : Debugger} (h : obeyAll fuel commands d = some e) :
    Passes fuel d (commandsHistory fuel d commands) e
  /-- An action that counts its steps has made some. -/
  | stepping {commands : List Command} {e : Debugger} (h : obeyAll fuel commands d = some e)
    (k : Nat) : Passes fuel d (commandsHistory fuel d commands ++ tickHistory k e.machine)
      { e with machine := (ticks k e.machine).2 }
  /-- A run to the end has made some rounds. -/
  | toEnd {commands : List Command} {e f : Debugger} {k cycle : Nat}
    (h : obeyAll fuel commands d = some e) (hk : stateAfter endRound k (e, 0) = some (f, cycle)) :
    Passes fuel d (commandsHistory fuel d commands ++
      steppedOn Prod.fst (visited endRound k (e, 0))) f
  /-- A run to the next output has made some rounds. -/
  | toOutput {commands : List Command} {e f : Debugger} {k : Nat}
    (h : obeyAll fuel commands d = some e)
    (hk : stateAfter (outputRound e.machine.outputs.size) k e = some f) :
    Passes fuel d (commandsHistory fuel d commands ++
      steppedOn id (visited (outputRound e.machine.outputs.size) k e)) f

/-- A session that began with the machine `m` accounts for all outputs that there were
then, and that the steps of the history have sent. -/
structure Accounts (limit : DigitLimit) (m : Machine) (history : List Machine) (d : Debugger) :
    Prop where
  /-- The limit of the host is the same as at the start. -/
  digitLimit : d.digitLimit = limit
  /-- Those that were taken, batch by batch, and then those that are queued are all of them
  in order. Of each batch those are shown up to one that cannot be written. -/
  outputs : ∃ batches : List (List Int),
    batches.flatten ++ d.machine.outputs.toList = m.outputs.toList ++ sent history ∧
    d.outputLines.toList.filterMap OutputLine.value? = batches.flatMap limit.front
  /-- The machine has counted those that were sent. -/
  counted : d.machine.counters.outputs = m.counters.outputs + (sent history).length
  /-- The log holds the first lines of the output panel. -/
  log : d.log.toList <+: d.outputLines.toList

variable {fuel k : Nat} {limit : DigitLimit} {d e f : Debugger} {m n : Machine}
  {g history : List Machine} {command : Command} {commands : List Command}
  {r : SessionResult Unit} {pause : Pause}

/-! ## Lines -/

theorem filterMap_value?_values (values : List Int) :
    (values.map OutputLine.value).filterMap OutputLine.value? = values := by
  rw [List.filterMap_map]
  exact List.filterMap_some

theorem valueTexts_eq (d : Debugger) :
    d.valueTexts = (d.outputLines.toList.filterMap OutputLine.value?).map toString := by
  unfold valueTexts
  induction d.outputLines.toList with
  | nil => rfl
  | cons line lines ih =>
    cases line with
    | value n => exact congrArg (toString n :: ·) ih
    | error message => exact ih

/-- If each output can be written, nothing of a batch is left out. -/
theorem flatMap_front_of_writes {batches : List (List Int)} (h : limit.Writes batches.flatten) :
    batches.flatMap limit.front = batches.flatten := by
  rw [List.flatMap_def]
  congr 1
  refine (List.map_congr_left fun batch hb => ?_).trans (List.map_id _)
  exact DigitLimit.front_of_writes fun n hn => h n (List.mem_flatten_of_mem hb hn)

/-! ## The log -/

/-- What is written behind the first lines are the others. -/
theorem log_refreshed {text : String} (h : d.log.toList <+: d.outputLines.toList) :
    (refreshed text d).log = d.outputLines := by
  refine Array.toList_inj.1 ?_
  unfold refreshed
  rw [Array.toList_append, Array.toList_extract, List.extract_eq_take_drop,
    List.take_of_length_le (by simp)]
  exact List.prefix_iff_eq_append.1 h

theorem log_collected (h : d.log.toList <+: d.outputLines.toList) :
    (collected d).log.toList <+: (collected d).outputLines.toList := by
  have hlines : (collected d).outputLines.toList = d.outputLines.toList ++
      (d.digitLimit.front d.machine.outputs.toList).map .value := Array.toList_appendList ..
  rw [hlines]
  exact h.trans (List.prefix_append ..)

/-- A refresh that comes to its end has written all that was queued, and leaves all lines in
the log. -/
theorem log_of_refresh (h : d.log.toList <+: d.outputLines.toList) (hr : refresh d = .ok () e) :
    e.log = e.outputLines ∧ e.machine.outputs = ∅ ∧
      d.digitLimit.Writes d.machine.outputs.toList := by
  have hrefresh := refreshes d
  rw [hr] at hrefresh
  cases hrefresh with
  | drawn _ hw => exact ⟨log_refreshed (log_collected h), rfl, hw.outputs⟩

theorem log_leaves_refresh (h : d.log.toList <+: d.outputLines.toList) :
    (leaves (refresh d)).log.toList <+: (leaves (refresh d)).outputLines.toList := by
  have hr := refreshes d
  generalize refresh d = r at hr
  cases hr with
  | drawn =>
    refine ⟨[], ?_⟩
    rw [List.append_nil]
    exact congrArg Array.toList (log_refreshed (log_collected h))
  | unlisted => exact log_collected (d := d) h
  | unwritten => exact log_collected (d := d) h

namespace Accounts

theorem attach (limit : DigitLimit) (m : Machine) (busy : Bool) :
    Accounts limit m [] { Debugger.attach m with busy, digitLimit := limit } where
  digitLimit := rfl
  outputs := ⟨[], (List.append_nil _).symm, rfl⟩
  counted := rfl
  log := List.prefix_rfl

/-! ## One thing at a time -/

theorem after (h : Accounts limit m history e) :
    Accounts limit m (history ++ [e.machine]) { e with machine := e.machine.after } where
  digitLimit := h.digitLimit
  outputs := by
    obtain ⟨batches, hall, hshown⟩ := h.outputs
    refine ⟨batches, ?_, hshown⟩
    rw [sent_append, sent_singleton, ← List.append_assoc, ← hall, List.append_assoc,
      ← e.machine.trades_step.outputs]
  counted := by
    rw [sent_append, sent_singleton, List.length_append, ← Nat.add_assoc, ← h.counted]
    exact e.machine.trades_step.sent
  log := h.log

theorem error (h : Accounts limit m history e) (message : String) :
    Accounts limit m history { e with outputLines := e.outputLines.push (.error message) } where
  digitLimit := h.digitLimit
  outputs := by
    obtain ⟨batches, hall, hshown⟩ := h.outputs
    refine ⟨batches, hall, ?_⟩
    rw [Array.toList_push, List.filterMap_append, hshown]
    exact List.append_nil _
  counted := h.counted
  log := by
    rw [Array.toList_push]
    exact h.log.trans (List.prefix_append ..)

theorem addInputs (h : Accounts limit m history e) (values : List Int) :
    Accounts limit m history { e with machine := e.machine.addInputs values } :=
  ⟨h.digitLimit, h.outputs, h.counted, h.log⟩

/-- What is queued becomes one more batch. -/
theorem refresh (h : Accounts limit m history e) :
    Accounts limit m history (leaves (refresh e)) where
  digitLimit := leaves_refresh.2.2.trans h.digitLimit
  outputs := by
    obtain ⟨batches, hall, hshown⟩ := h.outputs
    refine ⟨batches ++ [e.machine.outputs.toList], ?_, ?_⟩
    · rw [leaves_refresh.1, List.flatten_append, List.flatten_singleton, hall]
      exact List.append_nil _
    · rw [leaves_refresh.2.1, List.filterMap_append, filterMap_value?_values, hshown,
        h.digitLimit, List.flatMap_append, List.flatMap_singleton]
  counted := by
    rw [leaves_refresh.1]
    exact h.counted
  log := log_leaves_refresh h.log

/-! ## Actions and commands -/

theorem course (hc : Course d g e) (h : Accounts limit m history d) :
    Accounts limit m (history ++ g) e := by
  induction hc with
  | refl => rwa [List.append_nil]
  | step _ hs ih =>
    rw [← List.append_assoc, ← after_of_ok hs]
    exact ih.after
  | refresh _ hr ih =>
    have hl := ih.refresh
    rwa [hr] at hl
  | mark _ _ _ ih => exact ⟨ih.digitLimit, ih.outputs, ih.counted, ih.log⟩

theorem conclude (h : Accounts limit m history e) (pause : Pause) :
    Accounts limit m history (leaves (conclude pause e)) := by
  cases pause with
  | rest => exact h.refresh
  | failed failure =>
    cases failure with
    | fault f =>
      rw [Debugger.conclude, report_eq]
      exact (h.error f.message).refresh
    | memoryLimit => exact h

theorem performs (hp : Performs d g r) (h : Accounts limit m history d) :
    Accounts limit m (history ++ g) (leaves r) := by
  cases hp with
  | rests hc => exact (h.course hc).refresh
  | ends hc hm ht =>
    rw [(ends_of_tick hm ht).1, ← List.append_assoc]
    exact (h.course hc).after.conclude _
  | idles => rwa [List.append_nil]
  | marks =>
    rw [List.append_nil]
    obtain ⟨breakpoints, screen, hl⟩ := leaves_toggleBreakpoint (d := d)
    rw [hl]
    exact ⟨h.digitLimit, h.outputs, h.counted, h.log⟩

theorem obey (hr : Debugger.obey fuel command d = some r) (h : Accounts limit m history d) :
    Accounts limit m (history ++ commandHistory fuel d command) (leaves r) := by
  cases command with
  | mount autoRun =>
    have hfirst := h.refresh
    simp only [Debugger.obey, start] at hr
    cases hd : Debugger.refresh d with
    | error error e =>
      simp only [hd, Option.some.injEq] at hr hfirst
      simp only [commandHistory, hd, List.append_nil]
      rwa [← hr]
    | ok u e =>
      simp only [hd] at hr hfirst
      simp only [commandHistory, hd]
      cases autoRun with
      | false =>
        cases hr
        rwa [if_neg Bool.false_ne_true, List.append_nil]
      | true =>
        rw [if_pos rfl]
        exact Accounts.performs (Debugger.performs hr) hfirst
  | act action => exact Accounts.performs (Debugger.performs hr) h
  | submit line =>
    obtain rfl : submit line d = r := Option.some.inj hr
    rw [commandHistory, List.append_nil]
    have hs := submits line d
    generalize submit line d = r at hs
    cases hs with
    | idles => exact h
    | refuses message =>
      rw [report_eq]
      exact (h.error message).refresh
    | queues values => exact (h.addInputs values).refresh
    | fails => exact h

theorem obeyAll (hr : Debugger.obeyAll fuel commands d = some e) (h : Accounts limit m history d) :
    Accounts limit m (history ++ commandsHistory fuel d commands) e := by
  induction commands generalizing d history with
  | nil =>
    cases hr
    rwa [commandsHistory, List.append_nil]
  | cons command commands ih =>
    obtain ⟨r, hfirst, hrest⟩ := Option.bind_eq_some_iff.1 hr
    simp only [commandsHistory, hfirst]
    rw [← List.append_assoc]
    exact ih hrest (h.obey hfirst)

theorem ticks (h : Accounts limit m history e) (k : Nat) :
    Accounts limit m (history ++ tickHistory k e.machine)
      { e with machine := (Debugger.ticks k e.machine).2 } := by
  induction k generalizing history e with
  | zero =>
    rw [tickHistory, List.append_nil]
    exact h
  | succ k ih =>
    by_cases hm : e.machine.IsRunning
    · cases ht : tick e.machine with
      | mk pause? n =>
        simp only [Debugger.ticks, tickHistory, if_pos hm, ht]
        cases pause? with
        | none =>
          obtain rfl : e.machine.after = n := after_of_ok (step_of_tick ht)
          rw [List.append_cons]
          exact ih h.after
        | some pause =>
          obtain rfl := (ends_of_tick hm ht).1
          exact h.after
    · rw [tickHistory_of_not_running hm, List.append_nil]
      simp only [Debugger.ticks, tick_of_not_running hm]
      exact h

theorem passes (hp : Passes fuel d history e) (h : Accounts limit m [] d) :
    Accounts limit m history e := by
  have hcommands : ∀ {commands f}, Debugger.obeyAll fuel commands d = some f →
      Accounts limit m (commandsHistory fuel d commands) f := fun hr => h.obeyAll hr
  cases hp with
  | after hr => exact hcommands hr
  | stepping hr k => exact (hcommands hr).ticks k
  | toEnd hr hk => exact (hcommands hr).course (paced_endRound.course hk)
  | toOutput hr hk => exact (hcommands hr).course ((paced_outputRound _).course hk)

/-- If each output can be written, what is shown and what is queued are all of them. -/
theorem valueTexts_append (h : Accounts limit m history d)
    (hw : limit.Writes (m.outputs.toList ++ sent history)) :
    d.valueTexts ++ d.machine.outputs.toList.map toString =
      (m.outputs.toList ++ sent history).map toString := by
  obtain ⟨batches, hall, hshown⟩ := h.outputs
  have hbatches : limit.Writes batches.flatten := by
    rw [← hall] at hw
    exact (DigitLimit.writes_append.1 hw).1
  rw [valueTexts_eq, hshown, flatMap_front_of_writes hbatches, ← List.map_append, hall]

end Accounts

-- A host that writes one digit: an output of two is lost, and the one behind it.
example : (perform 4 .runToEnd
      { attach (load [104, 7, 104, 10, 104, 8, 99] [] false) with digitLimit := some 1 }).map
    (fun r => (error? r, (leaves r).outputLines.toList, (leaves r).machine.outputs.toList)) =
    some (some (.tooManyDigits ⟨1, none⟩), [.value 7], []) := by decide +kernel

end Debugger

end Wordcode
