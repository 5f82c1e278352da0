import Mathlib.Logic.Function.Basic
import Mathlib.Algebra.GroupWithZero.Nat

/-!
# The executor

An execution queue holds the sessions that are still to run. The thread pool does not hold sessions: a task of the
pool names a queue, and the thread that runs it takes the first session of that queue and, if others are
left, puts the task back into the pool before it lets go of the queue. `deinit` stops the threads and then cancels
the sessions of the queues that the pool still has tasks for.

Queues and sessions are known by numbers. A step is one locked section, or what a thread does between two of them.
The section of the pool that lies inside one of a queue is part of it.
-/

namespace WorkflowModel.Kernel.Executor

inductive ExecState where
  | finished
  | canceled
  deriving DecidableEq, Repr

/-- A thread of `__thrdpool_routine`: it waits for a task, has one for a queue, has taken a session out of the queue,
has executed it, or has ended. -/
inductive PoolThread where
  | idle
  | taken (queue : Nat)
  | running (queue session : Nat)
  | executed (queue session : Nat)
  | exited
  deriving DecidableEq, Repr

inductive Entry where
  | accepted (queue session : Nat)
  | rejected (queue session : Nat)
  | taken (queue session : Nat)
  | executed (queue session : Nat)
  | handled (queue session : Nat) (state : ExecState)
  deriving DecidableEq, Repr

/-- `taskList` has the sessions of each queue, `taskQueue` the queues that the tasks of the pool name. -/
structure State where
  taskList : Nat → List Nat
  taskQueue : List Nat
  threads : List PoolThread
  terminate : Bool
  log : List Entry

/-- After `init` with this number of threads. -/
def init (nthreads : Nat) : State :=
  { taskList := fun _ => [], taskQueue := [], threads := List.replicate nthreads .idle, terminate := false, log := [] }

/-- `Executor::request`, where the two allocations succeed or not. The second one is made if the queue was empty. -/
def request (s : State) (session queue : Nat) (entryOk scheduleOk : Bool) : State × Int :=
  if entryOk = true then
    let added := { s with taskList := Function.update s.taskList queue (s.taskList queue ++ [session]) }
    let accepted := { added with log := added.log ++ [.accepted queue session] }
    if s.taskList queue = [] then
      if scheduleOk = true then ({ accepted with taskQueue := accepted.taskQueue ++ [queue] }, 0)
      else
        ({ added with
            taskList := Function.update added.taskList queue (added.taskList queue).dropLast,
            log := added.log ++ [.rejected queue session] }, -1)
    else (accepted, 0)
  else ({ s with log := s.log ++ [.rejected queue session] }, -1)

/-- The section of `executor_thread_routine`. It fails if the queue has no session. -/
def threadSection (s : State) (thread queue : Nat) : Option State :=
  match s.taskList queue with
  | session :: rest =>
      let s := { s with
        taskList := Function.update s.taskList queue rest, threads := s.threads.set thread (.running queue session),
        log := s.log ++ [.taken queue session] }
      some (if rest ≠ [] then { s with taskQueue := s.taskQueue ++ [queue] } else s)
  | [] => none

def cancelTasks (s : State) (queue : Nat) : State :=
  { s with
    taskList := Function.update s.taskList queue [],
    log := s.log ++ (s.taskList queue).map fun session => .handled queue session .canceled }

inductive Turn where
  | request (session queue : Nat) (entryOk scheduleOk : Bool)
  | take (thread : Nat)
  | threadSection (thread : Nat)
  | execute (thread : Nat)
  | handle (thread : Nat)
  | terminate
  | exit (thread : Nat)
  | cancel
  deriving DecidableEq, Repr

/-- One step. No request comes after `deinit` has set `terminate`; `thrdpool_destroy` cancels when all threads have
ended. -/
def step (s : State) : Turn → Option State
  | .request session queue entryOk scheduleOk =>
      if s.terminate = false then some (request s session queue entryOk scheduleOk).1 else none
  | .take thread =>
      match s.threads[thread]?, s.taskQueue with
      | some .idle, queue :: rest =>
          if s.terminate = false then
            some { s with taskQueue := rest, threads := s.threads.set thread (.taken queue) }
          else none
      | _, _ => none
  | .threadSection thread =>
      match s.threads[thread]? with
      | some (.taken queue) => threadSection s thread queue
      | _ => none
  | .execute thread =>
      match s.threads[thread]? with
      | some (.running queue session) =>
          some { s with
            threads := s.threads.set thread (.executed queue session), log := s.log ++ [.executed queue session] }
      | _ => none
  | .handle thread =>
      match s.threads[thread]? with
      | some (.executed queue session) =>
          some { s with
            threads := s.threads.set thread .idle, log := s.log ++ [.handled queue session .finished] }
      | _ => none
  | .terminate => if s.terminate = false then some { s with terminate := true } else none
  | .exit thread =>
      match s.threads[thread]? with
      | some .idle => if s.terminate = true then some { s with threads := s.threads.set thread .exited } else none
      | _ => none
  | .cancel =>
      match s.taskQueue with
      | queue :: rest =>
          if s.terminate = true ∧ ∀ thread ∈ s.threads, thread = .exited then
            some (cancelTasks { s with taskQueue := rest } queue)
          else none
      | [] => none

inductive Reached (nthreads : Nat) : State → Prop where
  | init : Reached nthreads (init nthreads)
  | step {s s' : State} {turn : Turn} : Reached nthreads s → step s turn = some s' → Reached nthreads s'

end WorkflowModel.Kernel.Executor
