import Wordcode.Proofs.Machine.Extends

/-!
# What a host hears from a machine

Besides its requests a host may read and write single cells of a machine, counted
like the machine's own accesses, and look at cells. A dialogue is what it hears in
reply to one call after another, up to the first that does not return. A machine
with more memory gives the same replies (`dialogue_extends`).
-/

namespace Wordcode

/-- What a host can ask of a machine. -/
inductive HostCall where
  | request (request : Request)
  /-- Read a cell, and count it. -/
  | readCell (address : Int)
  /-- Write a cell, and count it. -/
  | writeCell (address value : Int)
  /-- Look at a cell. -/
  | peek (address : Int)

/-- What a host hears from a machine. -/
inductive HostReply where
  | replied (reply : Reply)
  /-- The value of a cell, or why it could not be read. -/
  | read (result : Except Failure Int)
  /-- A cell is written, or why it could not be. -/
  | written (result : Except Failure Unit)
  | peeked (value : Int)

/-- The reply is that the host is exhausted. -/
def Reply.Exhausted : Reply → Prop
  | .stepped result => result = .error .memoryLimit
  | .ran result => result = .error (.failed .memoryLimit)
  | .sought result => result = .error (.failed .memoryLimit)
  | .tried outcome => outcome = .interrupted (.failed .memoryLimit)
  | .queued | .drained _ => False

/-- The host hears that it is exhausted. -/
def HostReply.Exhausted : HostReply → Prop
  | .replied reply => reply.Exhausted
  | .read result => result = .error .memoryLimit
  | .written result => result = .error .memoryLimit
  | .peeked _ => False

instance decidableEqError {ε α : Type} [DecidableEq ε] (result : Except ε α) (e : ε) :
    Decidable (result = .error e) :=
  match result with
  | .ok _ => isFalse fun h => by cases h
  | .error e' => decidable_of_iff (e' = e) ⟨congrArg _, Except.error.inj⟩

instance : DecidablePred Reply.Exhausted
  | .stepped result => inferInstanceAs (Decidable (result = .error .memoryLimit))
  | .ran result => inferInstanceAs (Decidable (result = .error (.failed .memoryLimit)))
  | .sought result => inferInstanceAs (Decidable (result = .error (.failed .memoryLimit)))
  | .tried outcome => inferInstanceAs (Decidable (outcome = .interrupted (.failed .memoryLimit)))
  | .queued | .drained _ => inferInstanceAs (Decidable False)

instance : DecidablePred HostReply.Exhausted
  | .replied reply => inferInstanceAs (Decidable reply.Exhausted)
  | .read result => inferInstanceAs (Decidable (result = .error .memoryLimit))
  | .written result => inferInstanceAs (Decidable (result = .error .memoryLimit))
  | .peeked _ => inferInstanceAs (Decidable False)

namespace Machine

/-- A result and the machine that it leaves, side by side. -/
def sideBySide {α : Type} : EStateM.Result Failure Machine α → Except Failure α × Machine
  | .ok x n => (.ok x, n)
  | .error f n => (.error f, n)

/-- The reply to a call, and the machine afterwards. There is none if the machine
would run on after `fuel` rounds. -/
def answer (fuel : Nat) (m : Machine) : HostCall → Option (HostReply × Machine)
  | .request request => (m.respond fuel request).map (Prod.map .replied id)
  | .readCell a => some (Prod.map .read id (sideBySide (Machine.readCell a m)))
  | .writeCell a v => some (Prod.map .written id (sideBySide (Machine.writeCell a v m)))
  | .peek a => some (.peeked (m.memory.peek a), m)

/-- The replies to calls that are made one after another, up to the first that does
not return, and the machine afterwards, if all return. -/
def dialogue (fuel : Nat) (m : Machine) : List HostCall → List HostReply × Option Machine
  | [] => ([], some m)
  | call :: calls =>
    match m.answer fuel call with
    | none => ([], none)
    | some (reply, n) =>
      let (replies, last) := n.dialogue fuel calls
      (reply :: replies, last)

variable {m n : Machine} {fuel : Nat}

/-- The reply is that the host is exhausted, whatever machine is left. -/
def ReplyExhausted (p : Reply × Machine) : Prop := p.1.Exhausted

theorem Extends.respond (h : m.Extends n) (fuel : Nat) (request : Request) :
    Mirrors ReplyExhausted (AnswersMirror Extends) (m.respond fuel request)
      (n.respond fuel request) := by
  have hreply {α : Type} (reply : α → Reply) (p q : α × Machine) (hpq : AnswersMirror Extends p q) :
      AnswersMirror Extends (reply p.1, p.2) (reply q.1, q.2) :=
    ⟨congrArg reply hpq.1, hpq.2⟩
  cases request with
  | step =>
    have hr := h.step
    unfold Machine.respond
    generalize Machine.step m = r, Machine.step n = r' at hr
    cases hr with
    | exhausted => exact .exempt rfl
    | ok h => exact .some ⟨rfl, h⟩
    | error h => exact .some ⟨rfl, h⟩
  | run => exact (h.run fuel).map (fun _ => id) (hreply .ran)
  | runUntilOutput => exact (h.runUntilOutput fuel).map (fun _ => id) (hreply .sought)
  | tryStep =>
    have ht : Mirrors ReplyExhausted (AnswersMirror Extends)
        ((some m.tryStep).map fun p => (Reply.tried p.1, p.2))
        ((some n.tryStep).map fun p => (Reply.tried p.1, p.2)) :=
      h.tryStep.map (fun _ => id) (hreply .tried)
    exact ht
  | tryRun => exact (h.tryRun fuel).map (fun _ => id) (hreply .tried)
  | addInputs values => exact .some ⟨rfl, h.addInputs values⟩
  | drainOutputs =>
    exact .some ⟨congrArg (Reply.drained ·.toList) h.outputs.symm, h.setOutputs ∅⟩

/-- The host hears that it is exhausted, whatever machine is left. -/
def HostExhausted (p : HostReply × Machine) : Prop := p.1.Exhausted

theorem ResultsMirror.sideBySide {α : Type} {r r' : EStateM.Result Failure Machine α}
    {reply : Except Failure α → HostReply} (h : ResultsMirror r r')
    (hx : (reply (.error .memoryLimit)).Exhausted) :
    Mirrors HostExhausted (AnswersMirror Extends) (some (Prod.map reply id (Machine.sideBySide r)))
      (some (Prod.map reply id (Machine.sideBySide r'))) := by
  cases h with
  | exhausted => exact .exempt hx
  | ok h => exact .some ⟨rfl, h⟩
  | error h => exact .some ⟨rfl, h⟩

theorem Extends.answer (h : m.Extends n) (fuel : Nat) (call : HostCall) :
    Mirrors HostExhausted (AnswersMirror Extends) (m.answer fuel call) (n.answer fuel call) := by
  cases call with
  | request request =>
    exact (h.respond fuel request).map (fun _ => id) fun p q hpq =>
      ⟨congrArg HostReply.replied hpq.1, hpq.2⟩
  | readCell a => exact (h.readCell a).sideBySide rfl
  | writeCell a v => exact (h.writeCell a v).sideBySide rfl
  | peek a => exact .some ⟨congrArg HostReply.peeked (h.peek a).symm, h⟩

theorem dialogue_of_none {call : HostCall} {calls : List HostCall}
    (h : m.answer fuel call = none) : m.dialogue fuel (call :: calls) = ([], none) := by
  simp only [dialogue, h]

theorem dialogue_of_some {call : HostCall} {calls : List HostCall} {p : HostReply × Machine}
    (h : m.answer fuel call = some p) :
    m.dialogue fuel (call :: calls) =
      (p.1 :: (p.2.dialogue fuel calls).1, (p.2.dialogue fuel calls).2) := by
  simp only [dialogue, h]

/-- As long as the host is not exhausted, it hears the same from a machine with more
memory, and is left a machine that it cannot tell from the other. -/
theorem dialogue_extends (h : m.Extends n) (calls : List HostCall)
    (hx : ∀ reply ∈ (m.dialogue fuel calls).1, ¬ reply.Exhausted) :
    (n.dialogue fuel calls).1 = (m.dialogue fuel calls).1 ∧
      Option.Rel Indistinguishable (m.dialogue fuel calls).2 (n.dialogue fuel calls).2 := by
  induction calls generalizing m n with
  | nil => exact ⟨rfl, .some h.indistinguishable⟩
  | cons call calls ih =>
    have hexempt : ∀ p, m.answer fuel call = some p → ¬ HostExhausted p := fun p hp => by
      rw [dialogue_of_some hp] at hx
      exact hx p.1 List.mem_cons_self
    rcases (h.answer fuel call).of_not_exempt hexempt with ⟨hm, hn⟩ | ⟨p, q, hm, hn, hreply, hpq⟩
    · rw [dialogue_of_none hm, dialogue_of_none hn]
      exact ⟨rfl, .none⟩
    · rw [dialogue_of_some hm] at hx ⊢
      rw [dialogue_of_some hn]
      obtain ⟨hreplies, hlast⟩ := ih hpq fun reply hr => hx reply (List.mem_cons_of_mem _ hr)
      exact ⟨by rw [hreply, hreplies], hlast⟩

end Machine

end Wordcode
