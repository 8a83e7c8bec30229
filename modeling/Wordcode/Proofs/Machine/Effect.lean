import Wordcode.Machine.Step
import Wordcode.Proofs.Memory.Access

/-!
# The effect of an instruction

An instruction is executed access by access, and every access may grow the
memory or fail. What it does is nevertheless settled before it starts: reading
shows at no address, so the cells to read, the cell to write and the values all
follow from the machine that the instruction finds (`effect`). Executing it is
performing this effect (`execute_eq_perform`): the input is taken first, then
all cells are read, then one is written, and the registers change last.
-/

namespace Wordcode

/-- The queue without its oldest value. -/
def Queue.tail (q : Queue) : Queue := ⟨q.values.extract 1 q.values.size⟩

theorem Queue.pop?_of_toList_eq_cons {q : Queue} {v : Int} {vs : List Int}
    (h : q.toList = v :: vs) :
    q.pop? = some (v, q.tail) := by
  obtain ⟨⟨l⟩⟩ := q
  simp only [toList] at h
  subst h
  rfl

@[simp] theorem Queue.toList_tail {q : Queue} : q.tail.toList = q.toList.tail := by
  obtain ⟨⟨l⟩⟩ := q
  cases l <;> simp [tail, toList]

namespace Machine

variable {m n : Machine} {α β : Type} {as bs : List Int} {a v : Int}

/-! ## Sequencing -/

theorem bind_of_ok {ε σ : Type} {s t : σ} {x : EStateM ε σ α} {f : α → EStateM ε σ β} {y : α}
    (h : x s = .ok y t) : (x >>= f) s = f y t := by
  show EStateM.bind x f s = f y t
  rw [EStateM.bind, h]

theorem bind_of_error {ε σ : Type} {s t : σ} {x : EStateM ε σ α} {f : α → EStateM ε σ β} {e : ε}
    (h : x s = .error e t) : (x >>= f) s = .error e t := by
  show EStateM.bind x f s = .error e t
  rw [EStateM.bind, h]

/-! ## Reading cells in a row -/

/-- The machine once the cells at the addresses are read. -/
def touched (m : Machine) (as : List Int) : Machine :=
  { m with
    memory := m.memory.growFor as
    counters := { m.counters with reads := m.counters.reads + as.length } }

/-- The machine with a read counted that then failed. -/
def countRead (m : Machine) : Machine :=
  { m with counters := { m.counters with reads := m.counters.reads + 1 } }

theorem touched_touched : (m.touched as).touched bs = m.touched (as ++ bs) := by
  simp only [touched, Memory.growFor_append, List.length_append, Nat.add_assoc]

theorem peek_touched : (m.touched as).memory.peek a = m.memory.peek a := Memory.peek_growFor

theorem readCell_of_allows (h : m.memory.Allows a) :
    readCell a m = .ok (m.memory.peek a) (m.touched [a]) := by
  simp only [readCell, Memory.read_of_allows h]
  rfl

theorem readCell_of_not_allows (h : ¬ m.memory.Allows a) :
    readCell a m = .error (.ofAccess (Memory.refusal a)) m.countRead := by
  simp only [readCell, Memory.read_of_not_allows h]
  rfl

theorem writeCell_of_allows (h : m.memory.Allows a) :
    writeCell a v m = .ok ()
      { m with
        memory := m.memory.put a v
        counters := { m.counters with writes := m.counters.writes + 1 } } := by
  simp only [writeCell, Memory.write_of_allows h]

theorem writeCell_of_not_allows (h : ¬ m.memory.Allows a) :
    writeCell a v m = .error (.ofAccess (Memory.refusal a))
      { m with counters := { m.counters with writes := m.counters.writes + 1 } } := by
  simp only [writeCell, Memory.write_of_not_allows h]

/-- Reads the cells at the addresses, in their order. -/
def readCells : List Int → StepM Unit
  | [] => pure ()
  | a :: as => do
    let _ ← readCell a
    readCells as

theorem readCells_append : readCells (as ++ bs) = (do readCells as; readCells bs) := by
  induction as with
  | nil => rfl
  | cons a as ih =>
    simp only [List.cons_append, readCells, ih, bind_assoc]

theorem readCells_of_admits (h : m.memory.Admits as) : readCells as m = .ok () (m.touched as) := by
  induction as generalizing m with
  | nil => rfl
  | cons a as ih =>
    rw [Memory.admits_cons] at h
    rw [readCells, bind_of_ok (readCell_of_allows h.1), ih h.2, touched_touched]
    rfl

theorem readCells_of_refuses (h : m.memory.Admits as) (ha : ¬ (m.memory.growFor as).Allows a) :
    readCells (as ++ a :: bs) m =
      .error (.ofAccess (Memory.refusal a)) (m.touched as).countRead := by
  have hc : readCell a (m.touched as) = _ := readCell_of_not_allows ha
  rw [readCells_append, bind_of_ok (readCells_of_admits h), readCells, bind_of_error hc]

/-- What follows the reading of some cells matters only on the machine it then
finds, which shows the same cells as before. -/
theorem readCells_bind_congr {f g : StepM α} (h : f (m.touched as) = g (m.touched as)) :
    (do readCells as; f) m = (do readCells as; g) m := by
  rcases m.memory.admits_or_refuses as with hr | ⟨before, b, after, rfl, hr, hb⟩
  · rw [bind_of_ok (readCells_of_admits hr), bind_of_ok (readCells_of_admits hr), h]
  · rw [bind_of_error (readCells_of_refuses hr hb), bind_of_error (readCells_of_refuses hr hb)]

/-! ## Operands -/

/-- The addresses read for a source whose literal is at `a`. -/
def sourceReads (m : Machine) (mode : Mode) (a : Int) : List Int :=
  match mode with
  | .position => [a, m.memory.peek a]
  | .immediate => [a]
  | .relative => [a, m.memory.peek a + m.base]

/-- The value of a source whose literal is at `a`. -/
def sourceValue (m : Machine) (mode : Mode) (a : Int) : Int :=
  match mode with
  | .position => m.memory.peek (m.memory.peek a)
  | .immediate => m.memory.peek a
  | .relative => m.memory.peek (m.memory.peek a + m.base)

/-- The address of a destination whose literal is at `a`. -/
def target (m : Machine) (destination : Destination) (a : Int) : Int :=
  match destination with
  | .position => m.memory.peek a
  | .relative => m.memory.peek a + m.base

theorem readCell_bind {k : Int → StepM α} :
    (readCell a >>= k) m = (do readCells [a]; k (m.memory.peek a)) m := by
  by_cases h : m.memory.Allows a
  · have hr : m.memory.Admits [a] := ⟨h, trivial⟩
    rw [bind_of_ok (readCell_of_allows h), bind_of_ok (readCells_of_admits hr)]
  · have hr : readCells [a] m = .error (.ofAccess (Memory.refusal a)) m.countRead :=
      bind_of_error (readCell_of_not_allows h)
    rw [bind_of_error (readCell_of_not_allows h), bind_of_error hr]

theorem readCells_bind_readCell {k : Int → StepM α} :
    (do readCells as; readCell a >>= k) m = (do readCells (as ++ [a]); k (m.memory.peek a)) m := by
  rw [readCells_append, bind_assoc]
  refine readCells_bind_congr ?_
  rw [readCell_bind, peek_touched]

/-- Reading a source, after some cells, is reading cells. -/
theorem readCells_bind_source {mode : Mode} {k : Int → StepM α} :
    (do readCells as; source mode a >>= k) m =
      (do readCells (as ++ m.sourceReads mode a); k (m.sourceValue mode a)) m := by
  simp only [source, bind_assoc]
  rw [readCells_bind_readCell]
  cases mode with
  | position =>
    show (do readCells (as ++ [a]); readCell _ >>= k) m = _
    rw [readCells_bind_readCell, List.append_assoc]
    rfl
  | immediate =>
    simp only [pure_bind]
    rfl
  | relative =>
    simp only [bind_assoc]
    calc
      _ = (do readCells (as ++ [a]); readCell (m.memory.peek a + m.base) >>= k) m :=
        readCells_bind_congr (by rfl)
      _ = _ := by rw [readCells_bind_readCell, List.append_assoc]; rfl

/-- Storing a value, after some cells are read, is reading one more and writing one. -/
theorem readCells_bind_store {destination : Destination} {k : StepM α} :
    (do readCells as; store destination a v; k) m =
      (do readCells (as ++ [a]); writeCell (m.target destination a) v; k) m := by
  simp only [store, bind_assoc]
  rw [readCells_bind_readCell]
  cases destination with
  | position => rfl
  | relative =>
    simp only [bind_assoc]
    exact readCells_bind_congr (by rfl)

/-! ## Effects -/

/-- What executing an instruction does. -/
structure Effect where
  /-- Whether the oldest input is taken. -/
  takesInput : Bool := false
  /-- The addresses of the cells read, in their order. -/
  reads : List Int
  /-- The cell written, and its new value. -/
  write? : Option (Int × Int) := none
  /-- The value output. -/
  output? : Option Int := none
  /-- The address of the next instruction. -/
  pc : Int
  /-- What is added to the base register. -/
  shift? : Option Int := none
  /-- The state of control afterwards. -/
  status : Status := .running

/-- The effect of the instruction at the program counter. An input instruction
has it if there is an input. -/
def effect (m : Machine) : Instruction → Effect
  | .compute operation left right result =>
    { reads := m.sourceReads left (m.pc + 1) ++ m.sourceReads right (m.pc + 2) ++ [m.pc + 3]
      write? := some (m.target result (m.pc + 3),
        operation.apply (m.sourceValue left (m.pc + 1)) (m.sourceValue right (m.pc + 2)))
      pc := m.pc + 4 }
  | .input result =>
    { takesInput := true
      reads := [m.pc + 1]
      write? := some (m.target result (m.pc + 1), m.inputs.toList.headD 0)
      pc := m.pc + 2 }
  | .output source =>
    { reads := m.sourceReads source (m.pc + 1)
      output? := some (m.sourceValue source (m.pc + 1))
      pc := m.pc + 2 }
  | .jump condition test goal =>
    { reads := m.sourceReads test (m.pc + 1) ++ m.sourceReads goal (m.pc + 2)
      pc := if condition.Holds (m.sourceValue test (m.pc + 1)) then m.sourceValue goal (m.pc + 2)
        else m.pc + 3 }
  | .adjustBase source =>
    { reads := m.sourceReads source (m.pc + 1)
      shift? := some (m.sourceValue source (m.pc + 1))
      pc := m.pc + 2 }
  | .halt =>
    { reads := []
      pc := m.pc
      status := .stopped }

/-- The machine once the input is taken. -/
def taking (m : Machine) (e : Effect) : Machine :=
  if e.takesInput then
    { m with
      inputs := m.inputs.tail
      counters := { m.counters with inputs := m.counters.inputs + 1 } }
  else m

/-- The machine with one more write counted. -/
def countWrite (m : Machine) : Machine :=
  { m with counters := { m.counters with writes := m.counters.writes + 1 } }

/-- The machine once the cell is written. -/
def writing (m : Machine) (e : Effect) : Machine :=
  match e.write? with
  | none => m
  | some (a, v) => { m.countWrite with memory := m.memory.put a v }

/-- The machine once the value is output and the registers are changed. -/
def settling (m : Machine) (e : Effect) : Machine :=
  { m with
    outputs := e.output?.elim m.outputs m.outputs.push
    pc := e.pc
    base := e.shift?.elim m.base (m.base + ·)
    status := e.status
    counters :=
      { m.counters with
        steps := m.counters.steps + 1
        outputs := m.counters.outputs + e.output?.elim 0 fun _ => 1 } }

/-- Writes the cell of an effect. -/
def Effect.store (e : Effect) : StepM Unit :=
  match e.write? with
  | none => pure ()
  | some (a, v) => writeCell a v

/-- Does what an effect says. -/
def Effect.perform (e : Effect) : StepM Unit := do
  modify (·.taking e)
  readCells e.reads
  e.store
  modify (·.settling e)

theorem Effect.perform_eq (e : Effect) :
    e.perform m =
      (do readCells e.reads; e.store; modify fun n : Machine => n.settling e) (m.taking e) := rfl

theorem takeInput_eq {e : Effect} {vs : List Int} (he : e.takesInput = true)
    (h : m.inputs.toList = v :: vs) : takeInput m = .ok (some v) (m.taking e) := by
  simp only [takeInput, Queue.pop?_of_toList_eq_cons h, taking, he, if_true]

/-- Executing an instruction is performing its effect. -/
theorem execute_eq_perform {i : Instruction} (h : ∀ d, i = .input d → m.inputs.toList ≠ []) :
    execute m.pc i m = (m.effect i).perform m := by
  rw [Effect.perform_eq]
  cases i with
  | compute operation left right result =>
    calc
      _ = (do
          readCells []
          let a ← source left (m.pc + 1)
          let b ← source right (m.pc + 2)
          store result (m.pc + 3) (operation.apply a b)
          finish (m.pc + 4)) m := rfl
      _ = _ := by
        rw [readCells_bind_source, readCells_bind_source, readCells_bind_store]
        rfl
  | input result =>
    obtain ⟨v, vs, hv⟩ := List.exists_cons_of_ne_nil (h result rfl)
    have ht : takeInput m = .ok (some v) (m.taking (m.effect (.input result))) :=
      takeInput_eq rfl hv
    calc
      _ = (do
          readCells []
          store result (m.pc + 1) v
          finish (m.pc + 2)) (m.taking (m.effect (.input result))) := bind_of_ok ht
      _ = _ := by
        rw [readCells_bind_store]
        simp only [effect, hv, List.headD_cons]
        rfl
  | output mode =>
    calc
      _ = (do
          readCells []
          let v ← source mode (m.pc + 1)
          emit v
          finish (m.pc + 2)) m := rfl
      _ = _ := by
        rw [readCells_bind_source]
        rfl
  | jump condition test goal =>
    calc
      _ = (do
          readCells []
          let v ← source test (m.pc + 1)
          let next ← source goal (m.pc + 2)
          finish (if condition.Holds v then next else m.pc + 3)) m := rfl
      _ = _ := by
        rw [readCells_bind_source, readCells_bind_source]
        rfl
  | adjustBase mode =>
    calc
      _ = (do
          readCells []
          let v ← source mode (m.pc + 1)
          modify fun m : Machine => { m with base := m.base + v }
          finish (m.pc + 2)) m := rfl
      _ = _ := by
        rw [readCells_bind_source]
        rfl
  | halt =>
    rfl

end Machine

end Wordcode
