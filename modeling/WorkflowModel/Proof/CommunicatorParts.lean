import WorkflowModel.Proof.CommunicatorEntries
import WorkflowModel.Proof.CommunicatorLedger

/-!
# The parts of a state

The parts in the entries are counted where they are: the poller has one in every entry that is registered, and
so has every result on its way to a handler thread, every handler thread at work and every requesting thread
with an idle connection. What the counts and the log say about one entry is its standing, and what they say
about the sessions is the ledger of the state.
-/

namespace WorkflowModel.Kernel.Communicator

def Registration.kind (node : Registration) : Kind :=
  if node.operation = .connect then .opening else .reading

def nodeCount (node : Option Registration) (k : Kind) : Nat :=
  if node.map Registration.kind = some k then 1 else 0

def Result.kind (result : Result) : Kind :=
  if result.state = .success then .success
  else if result.operation = .connect then .opening
  else .reading

def HandlerPc.part : HandlerPc → Option (Nat × Kind)
  | .waiting => none
  | .took result => some (result.entry, result.kind)
  | .adding e => some (e, .adding)
  | .succeeding e _ => some (e, .success)
  | .unlocking e alive _ => some (e, if alive then .parting else .dead)
  | .releasing e _ direct => some (e, if direct then .direct else .dropping)
  | .handling e _ direct => some (e, if direct then .direct else .dropping)
  | .dropping e => some (e, .dropping)
  | .freeing e direct => some (e, if direct then .direct else .freeing)

def RequestPc.part : RequestPc → Option (Nat × Kind)
  | .sending e => some (e, .taken)
  | .unlocking e => some (e, .leaving)
  | _ => none

def HandlerPc.voice : HandlerPc → Option Voice
  | .unlocking e true (some reply) => some { entry := e, session := reply.session, announced := false }
  | .releasing e reply _ => some { entry := e, session := reply.session, announced := false }
  | .handling e reply _ => some { entry := e, session := reply.session, announced := true }
  | _ => none

def Session.bond (session : Session) : Bond :=
  { target := session.target
    conn := session.conn
    bound := match session.pc with
      | .unlocking _ => true
      | .accepted => true
      | _ => false }

def Event.isAddRead (e : Nat) : Event → Bool
  | .addRead _ e' => e' = e
  | _ => false

/-- The value of `ref` at which the entry is released. -/
def Event.freedRef (e : Nat) : Event → Option Int
  | .releaseConn _ e' ref => if e' = e then some ref else none
  | _ => none

/-- The entry that a call is about, if it is not about a session. -/
def Event.entry : Event → Option Nat
  | .addRead _ e => some e
  | .releaseConn _ e _ => some e
  | _ => none

theorem Event.isAddRead_of_ne {event : Event} {e : Nat} (h : event.entry ≠ some e) :
    event.isAddRead e = false := by
  cases event <;> simp_all [Event.entry, Event.isAddRead]

theorem Event.freedRef_of_ne {event : Event} {e : Nat} (h : event.entry ≠ some e) :
    event.freedRef e = none := by
  cases event <;> simp_all [Event.entry, Event.freedRef]

namespace State

variable {s s' : State}

/-- The number of parts of one kind in an entry. -/
def count (s : State) (e : Nat) (k : Kind) : Nat :=
  nodeCount (s.entries e).node k
    + (s.pipe.countP fun result => (result.entry, result.kind) = (e, k))
    + (s.queue.countP fun result => (result.entry, result.kind) = (e, k))
    + (s.handlers.countP fun pc => pc.part = some (e, k))
    + (s.sessions.countP fun session => session.pc.part = some (e, k))

def standing (s : State) (e : Nat) : Standing :=
  { entry := s.entries e
    count := s.count e
    listed := decide (e ∈ s.idleList (s.entries e).target)
    adds := s.log.countP (Event.isAddRead e)
    frees := s.log.filterMap (Event.freedRef e) }

def ledger (s : State) : Ledger :=
  { debts := fun e => (s.standing e).debt
    targets := fun e => (s.entries e).target
    bonds := s.sessions.map Session.bond
    voices := s.handlers.map HandlerPc.voice
    log := s.log }

def Moved (s s' : State) (old new : Option (Nat × Kind)) : Prop :=
  ∀ e k, s'.count e k + (if old = some (e, k) then 1 else 0) = s.count e k + if new = some (e, k) then 1 else 0

theorem Moved.shift {e : Nat} {k k' : Option Kind} (h : Moved s s' (k.map (e, ·)) (k'.map (e, ·))) :
    Shift (s.count e) (s'.count e) k k' := by
  intro i
  have hi := h e i
  cases k <;> cases k' <;> simpa using hi

theorem Moved.count_eq {e e' : Nat} {k k' : Option Kind} (h : Moved s s' (k.map (e, ·)) (k'.map (e, ·)))
    (hne : e' ≠ e) : s'.count e' = s.count e' := by
  funext i
  have hi := h e' i
  cases k <;> cases k' <;> simpa [Ne.symm hne] using hi

theorem Moved.trans {s'' : State} {a b c : Option (Nat × Kind)} (h : Moved s s' a b) (h' : Moved s' s'' b c) :
    Moved s s'' a c := by
  intro e k
  have := h e k
  have := h' e k
  omega

theorem Moved.same {a : Option (Nat × Kind)} (h : Moved s s' a a) (b : Option (Nat × Kind)) :
    Moved s s' b b := by
  intro e k
  have := h e k
  omega

theorem moved_setEntry (s : State) (e : Nat) (entry : ConnEntry) :
    Moved s (s.setEntry e entry) ((s.entries e).node.map fun node => (e, node.kind))
      (entry.node.map fun node => (e, node.kind)) := by
  intro e' k
  simp only [count, setEntry]
  by_cases he : e' = e
  · subst he
    simp only [Function.update_self]
    cases (s.entries e').node <;> cases entry.node <;> simp [nodeCount] <;> omega
  · simp only [Function.update_of_ne he]
    cases (s.entries e).node <;> cases entry.node <;> simp [Ne.symm he]

theorem moved_setHandler {h : Nat} {pc : HandlerPc} (hpc : s.handlers[h]? = some pc) (pc' : HandlerPc) :
    Moved s (s.setHandler h pc') pc.part pc'.part := by
  intro e k
  have hcount := ListSet.countP_set_add (fun pc : HandlerPc => pc.part = some (e, k)) hpc pc'
  simp only [decide_eq_true_eq] at hcount
  simp only [count, setHandler]
  omega

theorem moved_setSession {σ : Nat} {session : Session} (hsession : s.sessions[σ]? = some session)
    (session' : Session) : Moved s (s.setSession σ session') session.pc.part session'.pc.part := by
  intro e k
  have hcount := ListSet.countP_set_add (fun session : Session => session.pc.part = some (e, k)) hsession session'
  simp only [decide_eq_true_eq] at hcount
  simp only [count, setSession]
  omega

theorem moved_addSession (s : State) (session : Session) :
    Moved s { s with sessions := s.sessions ++ [session] } none session.pc.part := by
  intro e k
  simp [count, List.countP_append, List.countP_singleton]
  omega

theorem moved_addQueue (s : State) (result : Result) :
    Moved s { s with queue := s.queue ++ [result] } none (some (result.entry, result.kind)) := by
  intro e k
  simp [count, List.countP_append, List.countP_singleton]
  omega

theorem moved_addPipe (s : State) (result : Result) :
    Moved s { s with pipe := s.pipe ++ [result] } none (some (result.entry, result.kind)) := by
  intro e k
  simp [count, List.countP_append, List.countP_singleton]
  omega

theorem moved_dropQueue {result : Result} {rest : List Result} (h : s.queue = result :: rest) :
    Moved s { s with queue := rest } (some (result.entry, result.kind)) none := by
  intro e k
  simp [count, h, List.countP_cons]
  omega

theorem moved_dropPipe {result : Result} {rest : List Result} (h : s.pipe = result :: rest) :
    Moved s { s with pipe := rest } (some (result.entry, result.kind)) none := by
  intro e k
  simp [count, h, List.countP_cons]
  omega

end State

end WorkflowModel.Kernel.Communicator
