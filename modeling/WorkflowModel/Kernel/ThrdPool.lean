import Mathlib.Logic.Function.Basic

/-!
# The thread pool

The threads of a pool take tasks out of one list, and sleep on the condition of the pool while it is empty. To stop
them, `__thrdpool_terminate` sets `terminate`, wakes all of them and sleeps on a condition of its own until the last
thread has left the loop. Each thread that leaves puts itself into `tid` and joins the thread that it found there, so
that only the last one is left to be joined by the thread that terminates the pool.

Threads are known by numbers. A step is one section under the mutex, or what a thread does between two of them; a
signal is sent after the section. A thread may wake up without a signal. A task may call `thrdpool_schedule` and
`thrdpool_increase` at any time, the other threads only between `thrdpool_create` and `thrdpool_destroy`.
-/

namespace WorkflowModel.Kernel.ThrdPool

variable {T : Type*}

/-- A thread in `__thrdpool_routine`: it is about to lock the mutex, sleeps on the condition of the pool, is in the
routine of a task, has put a task into the list from there and is about to signal, or has left the loop and found
this `tid`. -/
inductive Thread (T : Type*) where
  | ready
  | asleep
  | running (task : T)
  | signalling (task : T)
  | leaving (tid : Option Nat)
  | ended
  deriving DecidableEq, Repr

namespace Thread

def isAsleep : Thread T → Bool
  | .asleep => true
  | _ => false

def wake : Thread T → Thread T
  | .asleep => .ready
  | thread => thread

end Thread

/-- Why the pool is terminated: its creation has failed, or `thrdpool_destroy` was called, with a `pending` function
or without. -/
inductive Purpose where
  | abandon
  | destroy (pending : Bool)
  deriving DecidableEq, Repr

/-- The thread that creates the pool and destroys it. -/
inductive Owner where
  | creating (left : Nat)
  | created
  | terminating (purpose : Purpose)
  | asleep (purpose : Purpose)
  | ready (purpose : Purpose)
  | joining (purpose : Purpose)
  | draining (pending : Bool)
  | freed (purpose : Purpose)
  deriving DecidableEq, Repr

/-- `callers` is the number of threads outside the pool that are about to signal. What is under it is not in memory:
the tasks that were put into the list, the ones that a thread took out of it, the ones whose routine has returned, the
ones that `thrdpool_destroy` took out, the calls of `pending`, and the threads that were joined. -/
structure State (T : Type*) where
  taskQueue : List T
  nthreads : Nat
  tid : Option Nat
  terminate : Bool
  threads : List (Thread T)
  owner : Owner
  callers : Nat
  scheduled : List T
  started : List T
  finished : List T
  drained : List T
  pended : List T
  joined : List Nat
  deriving DecidableEq, Repr

/-- `thrdpool_create`, up to the loop that creates the threads. -/
def create (nthreads : Nat) : State T :=
  { taskQueue := [], nthreads := 0, tid := none, terminate := false, threads := [], owner := .creating nthreads,
    callers := 0, scheduled := [], started := [], finished := [], drained := [], pended := [], joined := [] }

namespace State

variable (s : State T)

def setThread (i : Nat) (thread : Thread T) : State T := { s with threads := s.threads.set i thread }

/-- `pthread_create` of a thread of the pool, with the count. -/
def createThread : State T := { s with threads := s.threads ++ [.ready], nthreads := s.nthreads + 1 }

/-- One round of `__thrdpool_create_threads`, or its end. -/
def createThreads (left : Nat) (ok : Bool) : State T :=
  if left = 0 then { s with owner := .created }
  else if ok = true then { s.createThread with owner := .creating (left - 1) }
  else { s with owner := .terminating .abandon }

/-- The section of `__thrdpool_schedule`. -/
def schedule (task : T) : State T :=
  { s with taskQueue := s.taskQueue ++ [task], scheduled := s.scheduled ++ [task] }

/-- `pthread_cond_signal`: a sleeping thread is woken if there is one. The operating system picks it. -/
def signal (pick : Nat) : Option (State T) :=
  match s.threads[pick]? with
  | some .asleep => some (s.setThread pick .ready)
  | _ => if s.threads.any Thread.isAsleep = true then none else some s

def increase (ok : Bool) : State T := if ok = true then s.createThread else s

/-- The thread puts itself into `tid`, and remembers what it found there. -/
def exchangeTid (thread : Nat) : State T :=
  { s.setThread thread (.leaving s.tid) with tid := some thread, nthreads := s.nthreads - 1 }

/-- `pthread_cond_signal` on the condition that `terminate` points to. -/
def signalTerminate : State T :=
  match s.owner with
  | .asleep purpose => { s with owner := .ready purpose }
  | _ => s

/-- The end of `__thrdpool_routine` after the loop, up to the join. -/
def leave (thread : Nat) : State T :=
  let s := s.exchangeTid thread
  if s.nthreads = 0 then s.signalTerminate else s

/-- The section of a thread in its loop. -/
def routineSection (thread : Nat) : State T :=
  if s.terminate = true then s.leave thread
  else
    match s.taskQueue with
    | [] => s.setThread thread .asleep
    | task :: rest => { s.setThread thread (.running task) with taskQueue := rest, started := s.started ++ [task] }

/-- `while (pool->nthreads > 0)` in `__thrdpool_terminate`: the thread sleeps, or goes on to the join. -/
def awaitThreads (purpose : Purpose) : State T :=
  if s.nthreads > 0 then { s with owner := .asleep purpose } else { s with owner := .joining purpose }

/-- The start of `__thrdpool_terminate`, with the broadcast. -/
def setTerminate (purpose : Purpose) : State T :=
  let s := { s with terminate := true, threads := s.threads.map Thread.wake }
  s.awaitThreads purpose

/-- What follows `__thrdpool_terminate`: a pool whose creation failed is freed, a pool that is destroyed has its list
emptied first. -/
def afterTerminate : Purpose → State T
  | .abandon => { s with owner := .freed .abandon }
  | .destroy pending => { s with owner := .draining pending }

/-- `pthread_join`, which returns when the thread has ended. -/
def join (tid : Nat) : Option (State T) :=
  match s.threads[tid]? with
  | some .ended => some { s with joined := s.joined ++ [tid] }
  | _ => none

/-- One round of the loop in `thrdpool_destroy`, or what follows it. -/
def drain (pending : Bool) : State T :=
  match s.taskQueue with
  | [] => { s with owner := .freed (.destroy pending) }
  | task :: rest =>
      { s with
        taskQueue := rest, drained := s.drained ++ [task]
        pended := if pending = true then s.pended ++ [task] else s.pended }

end State

/-- The names of what a thread outside the pool does come first, then those of a thread of the pool, and then those
of the owner. -/
inductive Turn (T : Type*) where
  | schedule (task : T)
  | signal (pick : Nat)
  | increase (ok : Bool)
  | routineSection (thread : Nat)
  | spuriousWake (thread : Nat)
  | taskSchedule (thread : Nat) (task : T)
  | taskSignal (thread pick : Nat)
  | taskIncrease (thread : Nat) (ok : Bool)
  | finish (thread : Nat)
  | threadJoin (thread : Nat)
  | createThreads (ok : Bool)
  | destroy (pending : Bool)
  | setTerminate
  | ownerSpuriousWake
  | ownerSection
  | ownerJoin
  | drain
  deriving DecidableEq, Repr

def step (s : State T) : Turn T → Option (State T)
  | .schedule task =>
      if s.owner = .created then some { s.schedule task with callers := s.callers + 1 } else none
  | .signal pick => if 0 < s.callers then { s with callers := s.callers - 1 }.signal pick else none
  | .increase ok => if s.owner = .created then some (s.increase ok) else none
  | .routineSection thread =>
      match s.threads[thread]? with
      | some .ready => some (s.routineSection thread)
      | _ => none
  | .spuriousWake thread =>
      match s.threads[thread]? with
      | some .asleep => some (s.setThread thread .ready)
      | _ => none
  | .taskSchedule thread task =>
      match s.threads[thread]? with
      | some (.running outer) => some ((s.schedule task).setThread thread (.signalling outer))
      | _ => none
  | .taskSignal thread pick =>
      match s.threads[thread]? with
      | some (.signalling outer) => (s.setThread thread (.running outer)).signal pick
      | _ => none
  | .taskIncrease thread ok =>
      match s.threads[thread]? with
      | some (.running _) => some (s.increase ok)
      | _ => none
  | .finish thread =>
      match s.threads[thread]? with
      | some (.running task) => some { s.setThread thread .ready with finished := s.finished ++ [task] }
      | _ => none
  | .threadJoin thread =>
      match s.threads[thread]? with
      | some (.leaving none) => some (s.setThread thread .ended)
      | some (.leaving (some tid)) => do
          let s ← s.join tid
          some (s.setThread thread .ended)
      | _ => none
  | .createThreads ok =>
      match s.owner with
      | .creating left => some (s.createThreads left ok)
      | _ => none
  -- Who destroys the pool sees to it that no other call on it goes on.
  | .destroy pending =>
      if s.owner = .created ∧ s.callers = 0 then some { s with owner := .terminating (.destroy pending) } else none
  | .setTerminate =>
      match s.owner with
      | .terminating purpose => some (s.setTerminate purpose)
      | _ => none
  | .ownerSpuriousWake =>
      match s.owner with
      | .asleep purpose => some { s with owner := .ready purpose }
      | _ => none
  | .ownerSection =>
      match s.owner with
      | .ready purpose => some (s.awaitThreads purpose)
      | _ => none
  | .ownerJoin =>
      match s.owner, s.tid with
      | .joining purpose, none => some (s.afterTerminate purpose)
      | .joining purpose, some tid => do
          let s ← s.join tid
          some (s.afterTerminate purpose)
      | _, _ => none
  | .drain =>
      match s.owner with
      | .draining pending => some (s.drain pending)
      | _ => none

inductive Reached (nthreads : Nat) : State T → Prop where
  | init : Reached nthreads (create nthreads)
  | step {s s' : State T} {turn : Turn T} : Reached nthreads s → step s turn = some s' → Reached nthreads s'

end WorkflowModel.Kernel.ThrdPool
