import WorkflowModel.Kernel.Poller

/-!
# The poller thread

`__poller_thread_routine` as a machine whose steps are the sections between two lock boundaries. Between
its steps other threads make their calls. What the kernel answers in a step is part of the input.
-/

namespace WorkflowModel.Kernel

/-- What one `read` of `__poller_handle_read` comes to: the bytes were appended, completing some messages
and perhaps failing, or there is nothing more to read now, or the connection has ended or failed. -/
inductive ReadResult where
  | bytes (messages : Nat) (failed : Option Int)
  | again
  | closed
  | error (errno : Int)
  deriving DecidableEq, Repr

/-- The loop of `__poller_handle_read`: the messages that it completes, and the result of the node if it
is done. -/
def readLoop : List ReadResult → Nat × Option (ResultState × Int)
  | [] => (0, none)
  | .again :: _ => (0, none)
  | .closed :: _ => (0, some (.finished, 0))
  | .error errno :: _ => (0, some (.error, errno))
  | .bytes messages (some errno) :: _ => (messages, some (.error, errno))
  | .bytes messages none :: rest =>
      let result := readLoop rest
      (messages + result.1, result.2)

/-- A batch of events in the middle of the loop over it. -/
structure Batch where
  now : Timespec
  rest : List EventData
  hasPipe : Bool
  deriving DecidableEq, Repr

/-- Where the thread is. -/
inductive Pc where
  | setTimer
  | wait
  | event (batch : Batch)
  | removing (n : Nat) (state : ResultState) (error : Int) (batch : Batch)
  | finishing (n : Nat) (state : ResultState) (error : Int) (batch : Batch)
  | checkPipe (batch : Batch)
  | pipeResults (pointers : List (Option Nat)) (stop : Bool) (batch : Batch)
  | timeout (batch : Batch)
  | timeoutResults (expired : List Nat) (batch : Batch)
  | returned
  deriving DecidableEq, Repr

/-- What the kernel answers. -/
structure Io where
  ready : List Nat
  now : Timespec
  reads : List ReadResult
  soError : Int
  deriving DecidableEq, Repr

namespace Poller

/-- `epoll_wait` gives registered descriptors, each at most once. -/
def readyEvents (io : Io) (p : Poller) : Option (List EventData) :=
  if io.ready.Nodup ∧ io.ready.length ≤ pollerEventsMax then
    io.ready.mapM fun fd => (p.interest fd).map Prod.fst
  else
    none

def recordMessages (n count : Nat) (p : Poller) : Poller :=
  { p with log := p.log ++ List.replicate count (.message n) }

/-- The handler of one event. -/
def handleEvent (io : Io) (event : EventData) (batch : Batch) (p : Poller) : Pc × Poller :=
  match event with
  | .timer => (.checkPipe batch, p)
  | .pipe => (.checkPipe { batch with hasPipe := true }, p)
  | .node n =>
      match (p.node n).operation with
      | .read =>
          let result := readLoop io.reads
          let p := (p.record (.handleRead n)).recordMessages n result.1
          match result.2 with
          | none => (.checkPipe batch, p)
          | some (state, error) => (.removing n state error batch, p)
      | .connect =>
          let p := p.record (.handleConnect n)
          if io.soError = 0 then
            (.removing n .finished 0 batch, p)
          else
            (.removing n .error io.soError batch, p)
      | _ => (.checkPipe batch, p)

end Poller

open Poller

/-- One step of `__poller_thread_routine`. A thread that waits for the pipe has no step. -/
def threadStep (io : Io) (pc : Pc) (p : Poller) : Option (Pc × Poller) :=
  match pc with
  | .setTimer => some (.wait, (p.record .setTimer).setTimer)
  | .wait =>
      (p.readyEvents io).map fun events =>
        (.event { now := io.now, rest := events, hasPipe := false }, p.record (.wait events))
  | .event batch =>
      match batch.rest with
      | [] => some (.setTimer, p)
      | event :: rest => some (p.handleEvent io event { batch with rest := rest })
  | .removing n state error batch =>
      let result := (p.record (.removeNode n)).removeNode n
      if result.1 then some (.checkPipe batch, result.2)
      else some (.finishing n state error batch, result.2)
  | .finishing n state error batch => some (.checkPipe batch, (p.setResult n state error).addResult n)
  | .checkPipe batch =>
      if batch.hasPipe then
        if p.pipe = [] then
          none
        else
          let result := p.readPipe
          some (.pipeResults result.1 (none ∈ result.1) batch, result.2.record (.readPipe result.1))
      else
        some (.timeout batch, p)
  | .pipeResults pointers stop batch =>
      match pointers with
      | some n :: rest => some (.pipeResults rest stop batch, p.addResult n)
      | none :: rest => some (.pipeResults rest stop batch, p)
      -- the break of the loop over the events leads back to the head of the outer loop
      | [] => if stop then some (.setTimer, p) else some (.timeout batch, p)
  | .timeout batch =>
      let result := p.expire batch.now
      some (.timeoutResults result.1 batch, result.2)
  | .timeoutResults expired batch =>
      match expired with
      | n :: rest =>
          some (.timeoutResults rest batch, (p.setResult n .error etimedout).addResult n)
      | [] => some (.event batch, p)
  | .returned => none

/-- A call of another thread. -/
inductive Call where
  | add (data : PollerData) (timeout : Int) (now : Timespec)
  | del (fd : Int)
  | mod (data : PollerData) (timeout : Int) (now : Timespec)
  | setTimeout (fd : Int) (timeout : Int) (now : Timespec)
  | addTimer (value now : Timespec)

def Poller.call (p : Poller) : Call → Option Poller
  | .add data timeout now => (p.add data timeout now).map Prod.snd
  | .del fd => (p.del fd).map Prod.snd
  | .mod data timeout now => (p.mod data timeout now).map Prod.snd
  | .setTimeout fd timeout now => (p.setTimeout fd timeout now).map Prod.snd
  | .addTimer value now => some (p.addTimer value now)

inductive Input where
  | call (call : Call)
  | stopMarker
  | thread (io : Io)

structure Machine where
  pc : Pc
  poller : Poller

def startedMachine (fds : Descriptors) (maxOpenFiles : Nat) : Machine :=
  { pc := .setTimer, poller := startedPoller fds maxOpenFiles }

namespace Machine

/-- One step of the whole. The stop marker is what `poller_stop` writes before it joins the thread. -/
def step (m : Machine) : Input → Option Machine
  | .call call => (m.poller.call call).map fun p => { m with poller := p }
  | .stopMarker => some { m with poller := { m.poller with pipe := m.poller.pipe ++ [none] } }
  | .thread io => (threadStep io m.pc m.poller).map fun result => { pc := result.1, poller := result.2 }

def run (m : Machine) : List Input → Option Machine
  | [] => some m
  | input :: rest => (m.step input).bind fun m => m.run rest

end Machine

end WorkflowModel.Kernel
