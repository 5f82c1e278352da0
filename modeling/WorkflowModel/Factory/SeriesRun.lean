import WorkflowModel.Factory.SeriesWork
import WorkflowModel.Lib.Replay

/-!
# The life of a series

A series starts with its first task. A task that is done deletes itself, or puts itself at the front again,
and pops the next one, which `subtask_done` dispatches. A client task may also leave the series for a while:
the router task that it puts at the front holds it, and so does the DNS task a router task. The callback of
the helper puts it back or deletes it. The task itself then just pops the next one.

A turn is a critical section of the series or a step of the thread that has the current task; `pop` reads `canceled`
before its first section. Between two turns any thread may push or cancel, until the series finds that it is empty.
-/

namespace WorkflowModel.Factory.SeriesRun

inductive Phase (T : Type*) where
  | created
  | running (task : T)
  /-- The task has been deleted or put away, and `pop` is called. -/
  | leaving
  | popping (canceled : Bool)
  /-- The loop of `pop` in a series that was canceled. -/
  | dropping (task : T)
  | ended
  deriving DecidableEq, Repr

/-- `waiting` has each task that is held with its helper, the newest first. The other lists are ghosts: the
tasks in the order they were dispatched in, those that were deleted after their callback, those that were
deleted without it, and the client tasks that were done without a target, for which the timer is commented out
in `done`. -/
structure State (T : Type*) where
  series : SeriesWork T
  first : T
  phase : Phase T
  waiting : List (T × T)
  dispatched : List T
  finished : List T
  dropped : List T
  forgotten : List T
  callbacks : Nat

inductive Turn (T : Type*) where
  | start
  | dismiss
  | pushBack (task : T)
  | pushFront (task : T)
  | cancel
  | setCallback (callback : Bool)
  | route (helper : T)
  | resume (helper task : T)
  | abandon (helper task : T)
  | finish
  | again
  | forget
  | readCanceled
  | popTask
  | delete
  deriving DecidableEq, Repr

variable {T : Type*}

/-- `create_series_work`. -/
def create (first : T) (last : Option T) (inParallel callback : Bool) : State T :=
  { series := SeriesWork.create last inParallel callback, first := first, phase := .created, waiting := [],
    dispatched := [], finished := [], dropped := [], forgotten := [], callbacks := 0 }

/-- `dismiss_recursive`: the loop is that of `pop`, with the first task to begin with. -/
def dismissRecursive (series : SeriesWork T) (first : T) : Option (SeriesWork T × Reply T) :=
  { series with inParallel := false, callback := false }.dropTasks (series.queueSize + 1) (some first) .nothing

/-- `pop_task` within `pop`. -/
def State.popTask (s : State T) (canceled : Bool) : State T :=
  let (series, task, callbacks) := s.series.popTask
  match task with
  | none => { s with series := series, phase := .ended, callbacks := s.callbacks + callbacks }
  | some task =>
      if canceled = true then { s with series := series, phase := .dropping task }
      else { s with series := series, phase := .running task, dispatched := s.dispatched ++ [task] }

/-- The helper is the running task, or waits for it itself. -/
def State.Helps [DecidableEq T] (s : State T) (running helper : T) : Prop :=
  helper = running ∨ (running, helper) ∈ s.waiting

instance [DecidableEq T] (s : State T) (running helper : T) : Decidable (s.Helps running helper) :=
  inferInstanceAs (Decidable (_ ∨ _))

def State.IsHelper (s : State T) (task : T) : Prop := task ∈ s.waiting.map Prod.fst

instance [DecidableEq T] (s : State T) (task : T) : Decidable (s.IsHelper task) := inferInstanceAs (Decidable (_ ∈ _))

/-- The turns of the task that runs. -/
def stepRunning [DecidableEq T] (s : State T) (task : T) : Turn T → Option (State T)
  | .route helper => do
      let series ← s.series.pushFront helper
      some { s with series := series, phase := .leaving, waiting := (helper, task) :: s.waiting }
  | .resume helper held =>
      if s.Helps task helper ∧ (helper, held) ∈ s.waiting then do
        let series ← s.series.pushFront held
        some { s with series := series, waiting := s.waiting.erase (helper, held) }
      else none
  | .abandon helper held =>
      if s.Helps task helper ∧ (helper, held) ∈ s.waiting ∧ ¬ s.IsHelper held then
        some { s with waiting := s.waiting.erase (helper, held), finished := s.finished ++ [held] }
      else none
  | .finish =>
      if s.IsHelper task then none
      else some { s with phase := .leaving, finished := s.finished ++ [task] }
  | .again => do
      let series ← s.series.pushFront task
      some { s with series := series, phase := .leaving }
  | .forget =>
      if s.IsHelper task then none
      else some { s with phase := .leaving, forgotten := s.forgotten ++ [task] }
  | _ => none

/-- The turns of the thread that has the series. -/
def stepCurrent [DecidableEq T] (s : State T) (turn : Turn T) : Option (State T) :=
  match s.phase, turn with
  | .created, .start => some { s with phase := .running s.first, dispatched := s.dispatched ++ [s.first] }
  | .created, .dismiss =>
      if s.series.inParallel = true then none
      else do
        let (series, reply) ← dismissRecursive s.series s.first
        some { s with series := series, phase := .ended, dropped := s.dropped ++ reply.deleted,
                      callbacks := s.callbacks + reply.callbacks }
  | .running task, turn => stepRunning s task turn
  | .leaving, .readCanceled => some { s with phase := .popping s.series.canceled }
  | .popping canceled, .popTask => some (s.popTask canceled)
  | .dropping task, .delete => some ({ s with dropped := s.dropped ++ [task] }.popTask true)
  | _, _ => none

/-- The turns that any thread may make while there is a series. -/
def stepShared (s : State T) : Turn T → Option (State T)
  | .pushBack task => do
      let series ← s.series.pushBack task
      some { s with series := series }
  | .pushFront task => do
      let series ← s.series.pushFront task
      some { s with series := series }
  | .cancel => some { s with series := s.series.cancel }
  | .setCallback callback => some { s with series := { s.series with callback := callback } }
  | _ => none

def step [DecidableEq T] (s : State T) (turn : Turn T) : Option (State T) :=
  if s.phase = .ended then none
  else
    match turn with
    | .pushBack _ | .pushFront _ | .cancel | .setCallback _ => stepShared s turn
    | _ => stepCurrent s turn

/-- The state after some turns of a series that was created. -/
def run [DecidableEq T] (first : T) (last : Option T) (inParallel callback : Bool) (turns : List (Turn T)) :
    Option (State T) :=
  Replay.replay step (create first last inParallel callback) turns

end WorkflowModel.Factory.SeriesRun
