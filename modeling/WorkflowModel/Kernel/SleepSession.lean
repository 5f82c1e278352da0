import WorkflowModel.Kernel.PollerThread
import WorkflowModel.Kernel.ReplyTimer
import WorkflowModel.Lib.Replay

/-!
# Sleeping sessions

A timer task is a `SleepSession`. `Communicator::sleep` gives it to one of the pollers as a timer without a
descriptor, the pollers put their results into one queue, and the handler threads take them from there and call
`handle`. Meanwhile the connections add, delete and rearm their own nodes in the same pollers. Each poller is the
machine of its thread, and a session is known by its poller and its node.
-/

namespace WorkflowModel.Kernel.SleepSession

open WorkflowModel.Kernel.Communicator

/-- `SS_STATE_COMPLETE` and `SS_STATE_DISRUPTED`. -/
inductive SleepState where
  | complete
  | disrupted
  deriving DecidableEq, Repr

/-- The value of the task that `WFTaskFactory::create_timer_task` makes. -/
def timerValue (microseconds : Nat) : Timespec :=
  ⟨(microseconds / 1000000 : Nat), (microseconds % 1000000 * 1000 : Nat)⟩

/-- A session that sleeps since `since`, the time that `poller_add_timer` has read. -/
structure Sleep where
  microseconds : Nat
  since : Timespec
  poller : Nat
  node : Nat
  deriving DecidableEq, Repr

/-- A call of `__poller_handle_timeout`: the poller, its time, and how many sessions there were. -/
structure Look where
  poller : Nat
  time : Timespec
  sessions : Nat
  deriving DecidableEq, Repr

/-- `queue` and `inHand` have each result with the poller that it comes from. `looks` is for the properties only. -/
structure State where
  pollers : List Machine
  queue : List (Nat × Action)
  inHand : List (Nat × Action)
  sleeps : List Sleep
  handled : List (Nat × Nat × SleepState)
  looks : List Look

def State.started (fds : List Descriptors) (maxOpenFiles : Nat) : State :=
  { pollers := fds.map fun fds => startedMachine fds maxOpenFiles
    queue := []
    inHand := []
    sleeps := []
    handled := []
    looks := [] }

/-- The calls of `__poller_add_result`. -/
def isResult : Action → Bool
  | .message _ => true
  | .addResult _ _ _ => true
  | _ => false

/-- What a step of a poller has put into the queue. -/
def newResults (m next : Machine) : List Action := (next.poller.log.drop m.poller.log.length).filter isResult

def State.advance (k : Nat) (m next : Machine) (s : State) : State :=
  { s with
    pollers := s.pollers.set k next
    queue := s.queue ++ (newResults m next).map fun action => (k, action) }

/-- `Communicator::sleep`. `mpoller_add_timer` counts its calls in an `unsigned int`. -/
def State.sleep (microseconds : Nat) (now : Timespec) (s : State) : Option State :=
  let k := s.sleeps.length % 2 ^ 32 % s.pollers.length
  s.pollers[k]?.bind fun m =>
    (m.step (.call (.addTimer (timerValue microseconds) now))).map fun next =>
      let s := s.advance k m next
      { s with sleeps := s.sleeps ++ [⟨microseconds, now, k, m.poller.count⟩] }

/-- The descriptor by which `mpoller_add`, `mpoller_del` and `mpoller_set_timeout` find the poller. The
communicator has no other calls for its connections. -/
def connectionFd : Call → Option Int
  | .add data _ _ => some data.fd
  | .del fd => some fd
  | .setTimeout fd _ _ => some fd
  | .mod _ _ _ => none
  | .addTimer _ _ => none

def State.connection (call : Call) (s : State) : Option State :=
  (connectionFd call).bind fun fd =>
    let k := (unsignedOfInt fd).toNat % s.pollers.length
    s.pollers[k]?.bind fun m => (m.step (.call call)).map fun next => s.advance k m next

def lookOf (k sessions : Nat) : Pc → List Look
  | .timeout batch => [⟨k, batch.now, sessions⟩]
  | _ => []

/-- A step of the thread of a poller. -/
def State.thread (k : Nat) (io : Io) (s : State) : Option State :=
  s.pollers[k]?.bind fun m =>
    (m.step (.thread io)).map fun next =>
      let s := s.advance k m next
      { s with looks := s.looks ++ lookOf k s.sleeps.length m.pc }

/-- `poller_queue_get`. -/
def State.take (s : State) : Option State :=
  match s.queue with
  | [] => none
  | result :: rest => some { s with queue := rest, inHand := s.inHand ++ [result] }

/-- `Communicator::handle_sleep_result`, for a result of a timer. The others are for the connections. -/
def State.handleSleepResult (result : Nat × Action) (s : State) : Option (Nat × Nat × SleepState) :=
  match result.2 with
  | .addResult n state _ =>
      s.pollers[result.1]?.bind fun m =>
        if (m.poller.node n).operation = .timer then
          some (result.1, n, if state = some .stopped then .disrupted else .complete)
        else
          none
  | _ => none

/-- A handler thread is done with one of the results that have been taken. -/
def State.handle (j : Nat) (s : State) : Option State :=
  s.inHand[j]?.map fun result =>
    { s with inHand := s.inHand.eraseIdx j, handled := s.handled ++ (s.handleSleepResult result).toList }

inductive Input where
  | sleep (microseconds : Nat) (now : Timespec)
  | connection (call : Call)
  | thread (k : Nat) (io : Io)
  | take
  | handle (j : Nat)

def step (s : State) : Input → Option State
  | .sleep microseconds now => s.sleep microseconds now
  | .connection call => s.connection call
  | .thread k io => s.thread k io
  | .take => s.take
  | .handle j => s.handle j

def run (inputs : List Input) (s : State) : Option State := Replay.replay step s inputs

end WorkflowModel.Kernel.SleepSession
