import Mathlib.Order.WellFounded
import Mathlib.Logic.Function.Basic
import Mathlib.Logic.Relation

/-!
# Tasks and parallel tasks

A task is dispatched, and some time after that `subtask_done` is called for it: inside `dispatch`, or later and by
any thread. `done` returns the task that follows, which takes over the place of the first, or nothing. A
parallel task dispatches the tasks of its array and is finished by whichever of them ends last. The thread that
ends the last one goes on with the parallel task itself.

Tasks are known by numbers. A pointer into the array of a parallel task is a pair of the parallel task and the
index. A thread is a stack of what it still has to do, innermost first; the statements between two calls are one
step, and so is the decrement of `nleft`.
-/

namespace WorkflowModel.Kernel.SubTask

/-- What `done` of each task returns, and the tasks that each parallel task starts with; other tasks have `none`.
Each task is at one place: in the array of a parallel task or behind another task, and `place` says in which
position its chain runs. The chains are finite, and so is the depth. -/
structure TaskTree where
  root : Nat
  subtasks : Nat → Option (List Nat)
  next : Nat → Option Nat
  place : Nat → Option (Nat × Nat)
  place_root : place root = none
  place_child : ∀ (p i t : Nat) (l : List Nat), subtasks p = some l → l[i]? = some t → place t = some (p, i)
  place_next : ∀ t u, next t = some u → place u = place t
  next_injective : ∀ t t' u, next t = some u → next t' = some u → t = t'
  next_ne_root : ∀ t, next t ≠ some root
  next_ne_child : ∀ (p t u : Nat) (l : List Nat), subtasks p = some l → t ∈ l → next u ≠ some t
  wellFounded : WellFounded fun u t => next t = some u ∨ ∃ l, subtasks t = some l ∧ u ∈ l

/-- A call that a thread is in. -/
inductive Frame where
  /-- `t->dispatch()` is next. -/
  | call (t : Nat)
  /-- The loop of `ParallelTask::dispatch`, before the position `i`. -/
  | loop (p i : Nat)
  /-- `subtask_done` with `cur` equal to `t`. -/
  | finish (t : Nat)
  /-- `done` has returned `cur`. -/
  | handOver (cur : Nat) (parent : Option Nat) (entry : Option (Nat × Nat))
  /-- `done` has returned `NULL` and there is a parent. -/
  | leave (parent : Nat) (entry : Option (Nat × Nat))
  deriving DecidableEq, Repr

inductive Entry where
  | dispatched (t : Nat)
  | done (t : Nat)
  | left (entry : Option (Nat × Nat))
  deriving DecidableEq, Repr

/-- `pending` are the tasks that will be done later, `log` what happened so far. -/
structure State where
  parent : Nat → Option Nat
  entry : Nat → Option (Nat × Nat)
  subtasks : Nat → List Nat
  nleft : Nat → Nat
  pending : List Nat
  threads : List (List Frame)
  log : List Entry

/-- Some thread is about to dispatch the root. -/
def TaskTree.start (tree : TaskTree) : State :=
  { parent := fun _ => none, entry := fun _ => none, subtasks := fun p => (tree.subtasks p).getD [],
    nleft := fun _ => 0, pending := [], threads := [[.call tree.root]], log := [] }

/-- `*entry = task`. -/
def State.setEntry (s : State) (entry : Option (Nat × Nat)) (task : Nat) : State :=
  match entry with
  | some (p, i) => { s with subtasks := Function.update s.subtasks p ((s.subtasks p).set i task) }
  | none => s

/-- `dispatch` of a task: a parallel task starts its loop, or is done at once if it is empty; another task is done
inside `dispatch`, or `later`. -/
def dispatch (tree : TaskTree) (s : State) (t : Nat) (later : Bool) : State × List Frame :=
  let s := { s with log := s.log ++ [.dispatched t] }
  match tree.subtasks t with
  | some l =>
      let s := { s with nleft := Function.update s.nleft t l.length }
      if l.length ≠ 0 then (s, [.loop t 0]) else (s, [.finish t])
  | none =>
      if later = true then ({ s with pending := t :: s.pending }, []) else (s, [.finish t])

/-- The next step of a call, and what is left of it. -/
def exec (tree : TaskTree) (s : State) (later : Bool) : Frame → Option (State × List Frame)
  | .call t => some (dispatch tree s t later)
  | .loop p i => do
      let t ← (s.subtasks p)[i]?
      let s := { s with
        parent := Function.update s.parent t (some p), entry := Function.update s.entry t (some (p, i)) }
      some (s, .call t :: if i + 1 ≠ ((tree.subtasks p).getD []).length then [.loop p (i + 1)] else [])
  | .finish t =>
      let parent := s.parent t
      let entry := s.entry t
      let s := { s with log := s.log ++ [.done t] }
      match tree.next t with
      | some cur => some (s, [.handOver cur parent entry])
      | none =>
          match parent with
          | some parent => some (s, [.leave parent entry])
          | none => some (s, [])
  | .handOver cur parent entry =>
      let s := { s with
        parent := Function.update s.parent cur parent, entry := Function.update s.entry cur entry }
      match parent with
      | some parent => some (s.setEntry entry parent, [.call cur])
      | none => some (s, [.call cur])
  | .leave parent entry =>
      let s := { s with
        nleft := Function.update s.nleft parent (s.nleft parent - 1), log := s.log ++ [.left entry] }
      some (s, if s.nleft parent = 0 then [.finish parent] else [])

/-- Who goes on: a thread with its innermost call, or a thread that was told that a pending task is done. -/
inductive Turn where
  | run (thread : Nat) (later : Bool)
  | complete (t : Nat)
  deriving DecidableEq, Repr

def step (tree : TaskTree) (s : State) : Turn → Option State
  | .run thread later =>
      match s.threads[thread]? with
      | some (frame :: rest) => do
          let (s, frames) ← exec tree s later frame
          some { s with threads := s.threads.set thread (frames ++ rest) }
      | _ => none
  | .complete t =>
      if t ∈ s.pending then
        some { s with pending := s.pending.erase t, threads := s.threads ++ [[.finish t]] }
      else none

inductive Run (tree : TaskTree) : List (State × Turn) → State → Prop where
  | start : Run tree [] tree.start
  | step {history : List (State × Turn)} {s s' : State} {turn : Turn} :
      Run tree history s → step tree s turn = some s' → Run tree (history ++ [(s, turn)]) s'

/-- The turns one after the other, as far as they can be taken. -/
def replayFrom (tree : TaskTree) (history : List (State × Turn)) (s : State) :
    List Turn → Option (List (State × Turn) × State)
  | [] => some (history, s)
  | turn :: turns =>
      match step tree s turn with
      | some s' => replayFrom tree (history ++ [(s, turn)]) s' turns
      | none => none

def replay (tree : TaskTree) (turns : List Turn) : Option (List (State × Turn) × State) :=
  replayFrom tree [] tree.start turns

end WorkflowModel.Kernel.SubTask
