import Wordcode.Proofs.Machine.Ended
import Wordcode.Proofs.Machine.Failure

/-!
# What control tells about the memory

A program may rewrite its own words. Yet a machine that waits stands at an input
instruction, one that has halted stands at a halt instruction, and the fault that
a machine has recorded can be read off the words that it stands at (`Truthful`).
For a step either executes an instruction, and then control is as that
instruction leaves it; or it fails, and then all cells and registers stay
(`Truthful.after`). Nothing that a host does with a machine changes either
(`Truthful.afterUses`).
-/

namespace Wordcode

/-- What a host does with a machine. -/
inductive Use where
  /-- It asks something of the machine. -/
  | request (request : Request)
  /-- It sets all counters to zero. -/
  | resetCounters

namespace Machine

/-- The machine after a use of it. There is none if the machine would run on
after `fuel` rounds. -/
def afterUse (fuel : Nat) (m : Machine) : Use → Option Machine
  | .request request => (m.respond fuel request).map (·.2)
  | .resetCounters => some m.resetCounters

/-- The machine after it was used in several ways, one after another. -/
def afterUses (fuel : Nat) (m : Machine) : List Use → Option Machine
  | [] => some m
  | use :: uses => do (← m.afterUse fuel use).afterUses fuel uses

/-- The word at the program counter is the instruction. -/
structure StandsAt (m : Machine) (i : Instruction) : Prop where
  nonneg : 0 ≤ m.pc
  lt_size : m.pc < m.memory.size
  decoded : decode (m.memory.peek m.pc) = .ok i

/-- The address that a parameter refers to whose literal is at `a`. An immediate
parameter refers to none. -/
def referent? (m : Machine) (mode : Mode) (a : Int) : Option Int :=
  match mode with
  | .position => some (m.memory.peek a)
  | .immediate => none
  | .relative => some (m.memory.peek a + m.base)

/-- The address that the `k`-th parameter of the instruction at the program counter
refers to. -/
def effectiveAddress? (m : Machine) (i : Instruction) (k : Nat) : Option Int :=
  i.modes[k]?.bind fun mode => m.referent? mode (m.pc + 1 + k)

/-- Where a fault comes from that a machine can have met where it stands. -/
inductive Accounts (m : Machine) : Fault → Prop
  | badInstruction {d : Defect} (hd : decode (m.memory.peek m.pc) = .error d) :
    Accounts m (.badInstruction (m.memory.peek m.pc) m.pc d)
  | unreached (hpc : m.pc < 0) : Accounts m (.negativeAddress m.pc)
  | parameter {i : Instruction} {k : Nat} {a : Int} (hd : decode (m.memory.peek m.pc) = .ok i)
    (hk : m.effectiveAddress? i k = some a) (ha : a < 0) : Accounts m (.negativeAddress a)

/-- Status and fault agree with what stands in the memory. -/
structure Truthful (m : Machine) : Prop where
  waiting : m.status = .waiting → ∃ d, m.StandsAt (.input d)
  stopped : m.status = .stopped → m.fault = none ∧ m.StandsAt .halt
  faulted : ∀ g, m.fault = some g → m.Accounts g

variable {fuel : Nat} {m n : Machine} {i : Instruction} {f : Failure} {g : Fault} {s : Status}
  {mode : Mode} {k : Nat} {a b v : Int} {use : Use} {uses : List Use}

/-! ## Control that stays -/

theorem Stays.standsAt (h : Stays m n) (hi : m.StandsAt i) : n.StandsAt i where
  nonneg := h.pc ▸ hi.nonneg
  lt_size := by
    have := h.size_le
    have := hi.lt_size
    rw [h.pc]
    omega
  decoded := by rw [h.pc, h.peek, hi.decoded]

theorem Stays.effectiveAddress?_eq (h : Stays m n) :
    n.effectiveAddress? i k = m.effectiveAddress? i k := by
  have hr : ∀ mode a, n.referent? mode a = m.referent? mode a := fun mode a => by
    cases mode <;> simp only [referent?, h.peek, h.base]
  simp only [effectiveAddress?, hr, h.pc]

theorem Stays.accounts (h : Stays m n) (hg : m.Accounts g) : n.Accounts g := by
  cases hg with
  | badInstruction hd =>
    rw [← h.peek, ← h.pc] at hd ⊢
    exact .badInstruction hd
  | unreached hpc =>
    rw [← h.pc] at hpc ⊢
    exact .unreached hpc
  | parameter hd hk ha =>
    rw [← h.peek, ← h.pc] at hd
    exact .parameter hd (h.effectiveAddress?_eq.trans hk) ha

/-- Where control stays it tells the truth about the faults that it did before, and
about those that the machine accounts for. -/
theorem Truthful.of_stays (hm : Truthful m) (h : Stays m n) (hs : m.IsRunning ∨ n.fault = m.fault)
    (hf : ∀ g, n.fault = some g → m.fault = some g ∨ m.Accounts g) : Truthful n where
  waiting hw := by
    obtain ⟨d, hd⟩ := hm.waiting (h.status ▸ hw)
    exact ⟨d, h.standsAt hd⟩
  stopped hn := by
    have hstop : m.status = .stopped := h.status ▸ hn
    obtain ⟨hnone, hhalt⟩ := hm.stopped hstop
    have hsame : n.fault = m.fault := hs.resolve_left fun hrun => hrun hstop
    exact ⟨hsame.trans hnone, h.standsAt hhalt⟩
  faulted g hg := (hf g hg).elim (fun hg => h.accounts (hm.faulted g hg)) h.accounts

/-! ## The addresses of an instruction -/

theorem effectiveAddress?_of_mode (hk : i.modes[k]? = some mode) (hb : b = m.pc + 1 + k)
    (h : m.referent? mode b = some a) : m.effectiveAddress? i k = some a := by
  subst hb
  rw [effectiveAddress?, hk]
  exact h

theorem referent?_mode (m : Machine) (d : Destination) (a : Int) :
    m.referent? d.mode a = some (m.target d a) := by
  cases d <;> rfl

/-- A source is read where its literal is, and where it refers to. -/
theorem sourceReads_eq (m : Machine) (mode : Mode) (a : Int) :
    m.sourceReads mode a = a :: (m.referent? mode a).toList := by
  cases mode <;> rfl

theorem lt_or_effectiveAddress?_of_mem (hk : i.modes[k]? = some mode) (hb : b = m.pc + 1 + k)
    (ha : a ∈ m.sourceReads mode b) : m.pc < a ∨ ∃ k, m.effectiveAddress? i k = some a := by
  rw [sourceReads_eq, List.mem_cons, Option.mem_toList] at ha
  rcases ha with rfl | ha
  · exact .inl (by omega)
  · exact .inr ⟨k, effectiveAddress?_of_mode hk hb ha⟩

/-- An instruction reads behind its own word, and where its parameters refer to. -/
theorem lt_or_effectiveAddress?_of_mem_reads (ha : a ∈ (m.effect i).reads) :
    m.pc < a ∨ ∃ k, m.effectiveAddress? i k = some a := by
  have h1 : m.pc + 1 = m.pc + 1 + (0 : Nat) := by omega
  have h2 : m.pc + 2 = m.pc + 1 + (1 : Nat) := by omega
  cases i with
  | compute operation left right result =>
    simp only [effect, List.mem_append, List.mem_singleton] at ha
    rcases ha with (ha | ha) | rfl
    · exact lt_or_effectiveAddress?_of_mem rfl h1 ha
    · exact lt_or_effectiveAddress?_of_mem rfl h2 ha
    · exact .inl (by omega)
  | input result =>
    rw [List.mem_singleton.1 ha]
    exact .inl (by omega)
  | output mode => exact lt_or_effectiveAddress?_of_mem rfl h1 ha
  | jump condition test goal =>
    simp only [effect, List.mem_append] at ha
    rcases ha with ha | ha
    · exact lt_or_effectiveAddress?_of_mem rfl h1 ha
    · exact lt_or_effectiveAddress?_of_mem rfl h2 ha
  | adjustBase mode => exact lt_or_effectiveAddress?_of_mem rfl h1 ha
  | halt => cases ha

/-- An instruction writes where its last parameter refers to. -/
theorem effectiveAddress?_of_write (hw : (m.effect i).write? = some (a, v)) :
    ∃ k, m.effectiveAddress? i k = some a := by
  cases i with
  | compute operation left right result =>
    cases hw
    have h3 : m.pc + 3 = m.pc + 1 + (2 : Nat) := by omega
    exact ⟨2, effectiveAddress?_of_mode rfl h3 (referent?_mode ..)⟩
  | input result =>
    cases hw
    have h1 : m.pc + 1 = m.pc + 1 + (0 : Nat) := by omega
    exact ⟨0, effectiveAddress?_of_mode rfl h1 (referent?_mode ..)⟩
  | _ => cases hw

/-! ## Steps -/

theorem ofAccess_refusal (h : Failure.ofAccess (Memory.refusal a) = .fault g) :
    a < 0 ∧ g = .negativeAddress a := by
  unfold Memory.refusal at h
  split at h
  · next ha =>
    cases h
    exact ⟨ha, rfl⟩
  · cases h

/-- A step ends in a fault that the machine accounts for. -/
theorem accounts_of_step (hf : m.fault = none) (hs : m.IsRunning)
    (h : step m = .error (.fault g) n) : m.Accounts g := by
  have hr := m.stepped
  rw [h] at hr
  generalize ho : EStateM.Result.error (Failure.fault g) n = r at hr
  cases hr with
  | faulted hf' => cases hf.symm.trans hf'
  | halted _ hs' => exact absurd hs' hs
  | unreached =>
    obtain ⟨hpc, rfl⟩ := ofAccess_refusal (failing_eq_error ho.symm).1
    exact .unreached hpc
  | undecoded _ _ _ hd =>
    cases (failing_eq_error ho.symm).1
    exact .badInstruction hd
  | starved => cases ho
  | @unread i before after a hi _ he =>
    obtain ⟨ha, rfl⟩ := ofAccess_refusal (failing_eq_error ho.symm).1
    have hmem : a ∈ (m.effect i).reads := he ▸ List.mem_append_right _ List.mem_cons_self
    rcases lt_or_effectiveAddress?_of_mem_reads hmem with hlt | ⟨k, hk⟩
    · have hpc := hi.reached.nonneg
      omega
    · exact .parameter hi.decoded hk ha
  | unwritten hi _ _ hw =>
    obtain ⟨ha, rfl⟩ := ofAccess_refusal (failing_eq_error ho.symm).1
    obtain ⟨k, hk⟩ := effectiveAddress?_of_write hw
    exact .parameter hi.decoded hk ha
  | executed => cases ho

theorem Truthful.of_sound (hf : m.fault = none)
    (hw : m.status = .waiting → ∃ d, m.StandsAt (.input d))
    (hs : m.status = .stopped → m.StandsAt .halt) : Truthful m :=
  ⟨hw, fun h => ⟨hf, hs h⟩, fun _ hg => nomatch hf.symm.trans hg⟩

theorem Meets.standsAt (h : m.Meets i) : m.StandsAt i :=
  ⟨h.pc_lt_size.1, h.pc_lt_size.2, h.decoded⟩

/-- What a step leaves that fails. -/
theorem Truthful.of_error (hm : Truthful m) (h : step m = .error f n) : Truthful n := by
  by_cases hend : m.Ended
  · have hsame := step_of_ended hend
    rw [h] at hsame
    cases hsame
    exact hm
  · have hf : m.fault = none := Classical.byContradiction fun hf => hend (.inr hf)
    have hs : m.IsRunning := fun hs => hend (.inl hs)
    obtain ⟨u, hmu, huf, rfl⟩ := exists_failing_of_error hf hs h
    refine hm.of_stays hmu.failing (.inl hs) fun g hg => .inr ?_
    rw [fault_failing huf] at hg
    subst hg
    exact accounts_of_step hf hs h

/-- What a step leaves that waits or executes an instruction. -/
theorem truthful_of_ok (h : step m = .ok s n) : Truthful n := by
  rcases step_ok_cases h with ⟨d, hi, -, -, rfl⟩ | ⟨i, hi, -, -, rfl⟩
  · have hst := status_waiting (m := m.fetched (.input d))
    refine .of_sound (fault_waiting.trans hi.sound) (fun _ => ⟨d, ?_⟩) fun hs => ?_
    · have hstand := hi.standsAt
      unfold waiting
      split
      · exact ⟨hstand.nonneg, hstand.lt_size, hstand.decoded⟩
      · exact ⟨hstand.nonneg, hstand.lt_size, hstand.decoded⟩
    · rw [hst] at hs
      cases hs
  · refine .of_sound (fault_performed.trans hi.sound) (fun hw => ?_) fun hs => ?_
    · exact absurd hw status_effect_ne_waiting
    · -- Only the halt instruction stops, and it touches nothing.
      cases i with
      | halt => exact ⟨hi.standsAt.nonneg, hi.standsAt.lt_size, hi.standsAt.decoded⟩
      | _ => cases hs

theorem Truthful.after (hm : Truthful m) : Truthful m.after := by
  cases h : step m with
  | ok s n =>
    rw [after_of_ok h]
    exact truthful_of_ok h
  | error f n =>
    rw [after_of_error h]
    exact hm.of_error h

/-! ## Uses -/

theorem truthful_load (program inputs : List Int) (verbose : Bool) :
    Truthful (load program inputs verbose) :=
  .of_sound rfl nofun nofun

theorem Truthful.afterUse (hm : Truthful m) (hu : m.afterUse fuel use = some n) : Truthful n := by
  cases use with
  | request request =>
    obtain ⟨⟨reply, n'⟩, hr, rfl⟩ := Option.map_eq_some_iff.1 hu
    obtain ⟨t, q, ht, rfl, -⟩ :=
      @respond_steps fuel m n' request reply [] (fun _ => Truthful) (fun _ _ => .after) hm hr
    exact ht.of_stays ⟨⟨[], rfl⟩, rfl, rfl, rfl, rfl⟩ (.inr rfl) fun _ hg => .inl hg
  | resetCounters =>
    cases hu
    exact hm.of_stays ⟨⟨[], rfl⟩, rfl, rfl, rfl, rfl⟩ (.inr rfl) fun _ hg => .inl hg

theorem Truthful.afterUses (hm : Truthful m) (hu : m.afterUses fuel uses = some n) :
    Truthful n := by
  induction uses generalizing m with
  | nil =>
    cases hu
    exact hm
  | cons use uses ih =>
    obtain ⟨t, ht, hrest⟩ := Option.bind_eq_some_iff.1 hu
    exact ih (hm.afterUse ht) hrest

/-- However a machine is used: if it waits, the word at the program counter is an
input instruction; if it has halted, that word is the halt instruction, and no
fault is recorded. If it has recorded that a word is no instruction, that is the
word at the program counter, and is none for the same defect. And if it has
recorded an access to a negative address, that is the program counter or what a
parameter of the instruction there refers to. -/
theorem control_reflects_memory (program inputs : List Int) (verbose : Bool) (fuel : Nat)
    (uses : List Use) {m : Machine}
    (hu : (load program inputs verbose).afterUses fuel uses = some m) :
    (m.status = .waiting → ∃ d, m.StandsAt (.input d)) ∧
    (m.status = .stopped → m.fault = none ∧ m.StandsAt .halt) ∧
    (∀ word address defect, m.fault = some (.badInstruction word address defect) →
      address = m.pc ∧ m.memory.peek m.pc = word ∧ decode word = .error defect) ∧
    ∀ address, m.fault = some (.negativeAddress address) →
      address < 0 ∧ (address = m.pc ∨ ∃ i k, decode (m.memory.peek m.pc) = .ok i ∧
        m.effectiveAddress? i k = some address) := by
  have hm := (truthful_load program inputs verbose).afterUses hu
  refine ⟨hm.waiting, hm.stopped, fun word address defect hf => ?_, fun address hf => ?_⟩
  · cases hm.faulted _ hf with
    | badInstruction hd => exact ⟨rfl, rfl, hd⟩
  · cases hm.faulted _ hf with
    | unreached hpc => exact ⟨hpc, .inl rfl⟩
    | parameter hd hk ha => exact ⟨ha, .inr ⟨_, _, hd, hk⟩⟩

/-- A machine that waits, is given an input, and meets its fault at the same
instruction: it is to store the input below address 0. -/
theorem control_reflects_memory_waiting : ∃ m,
    (load [109, -7, 203, 1, 99] [] false).afterUses 9
      [.request .run, .resetCounters, .request (.addInputs [5]), .request .tryRun] = some m ∧
    m.status = .waiting ∧ (∃ d, m.StandsAt (.input d)) ∧
    m.fault = some (.negativeAddress (-6)) ∧ (-6 : Int) < 0 ∧
    (-6 = m.pc ∨ ∃ i k, decode (m.memory.peek m.pc) = .ok i ∧
      m.effectiveAddress? i k = some (-6)) := by
  have hm : ((load [109, -7, 203, 1, 99] [] false).afterUses 9
      [.request .run, .resetCounters, .request (.addInputs [5]), .request .tryRun]).map
        (fun m => (m.status, m.fault)) =
          some (.waiting, some (.negativeAddress (-6))) := by decide +kernel
  obtain ⟨m, hm, hsf⟩ := Option.map_eq_some_iff.1 hm
  obtain ⟨hs, hf⟩ := Prod.mk.inj hsf
  have h := control_reflects_memory _ _ _ _ _ hm
  exact ⟨m, hm, hs, h.1 hs, hf, h.2.2.2 _ hf⟩

end Machine

end Wordcode
