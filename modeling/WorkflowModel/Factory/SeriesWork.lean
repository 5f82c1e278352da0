import Mathlib.Logic.Function.Basic

/-!
# A series of tasks

A series keeps the tasks that are still to run in a ring of pointers. The ring is full when `front` meets `back`
after a push, and it is then copied into one of twice the size, so that the two only stay equal when the
ring is empty. The last task is kept beside the ring. Each call is one section under the mutex of the series.

The slots of a new array hold nothing in particular. `gone` is set when the series has deleted itself.
-/

namespace WorkflowModel.Factory

structure SeriesWork (T : Type*) where
  queue : Nat → Option T
  queueSize : Nat
  front : Nat
  back : Nat
  last : Option T
  inParallel : Bool
  canceled : Bool
  callback : Bool
  gone : Bool

/-- What a call does besides its change of the series: the task it returns, the tasks it deletes in turn, and how
often it runs the callback of the series. -/
structure Reply (T : Type*) where
  task : Option T
  deleted : List T
  callbacks : Nat
  deriving DecidableEq, Repr

def Reply.nothing {T : Type*} : Reply T := { task := none, deleted := [], callbacks := 0 }

namespace SeriesWork

variable {T : Type*}

/-- The constructor, and `set_last_task` if there is a last task. A series that becomes part of a parallel work
is marked so before it starts. -/
def create (last : Option T) (inParallel callback : Bool) : SeriesWork T :=
  { queue := fun _ => none, queueSize := 4, front := 0, back := 0, last := last, inParallel := inParallel,
    canceled := false, callback := callback, gone := false }

/-- The loop of `expand_queue`, after `i` of the slots have been copied to `queue`. -/
def expandLoop (s : SeriesWork T) : Nat → (Nat → Option T) → Nat → Nat → Option ((Nat → Option T) × Nat)
  | 0, _, _, _ => none
  | fuel + 1, queue, i, j =>
      let queue := Function.update queue i (s.queue j)
      let i := i + 1
      let j := if j + 1 = s.queueSize then 0 else j + 1
      if j ≠ s.back then s.expandLoop fuel queue i j else some (queue, i)

def expandQueue (s : SeriesWork T) : Option (SeriesWork T) := do
  let size := 2 * s.queueSize
  let (queue, i) ← s.expandLoop s.queueSize (fun _ => none) 0 s.front
  some { s with queue := queue, queueSize := size, front := 0, back := i }

def pushFront (s : SeriesWork T) (task : T) : Option (SeriesWork T) :=
  let front := if s.front = 0 then s.queueSize - 1 else s.front - 1
  let s := { s with queue := Function.update s.queue front (some task), front := front }
  if s.front = s.back then s.expandQueue else some s

def pushBack (s : SeriesWork T) (task : T) : Option (SeriesWork T) :=
  let back := if s.back + 1 = s.queueSize then 0 else s.back + 1
  let s := { s with queue := Function.update s.queue s.back (some task), back := back }
  if s.front = s.back then s.expandQueue else some s

/-- `pop_task`, with the number of times that it runs the callback. -/
def popTask (s : SeriesWork T) : SeriesWork T × Option T × Nat :=
  let (s, task) :=
    if s.front ≠ s.back then
      ({ s with front := if s.front + 1 = s.queueSize then 0 else s.front + 1 }, s.queue s.front)
    else ({ s with last := none }, s.last)
  match task with
  | some _ => (s, task, 0)
  | none => ({ s with gone := !s.inParallel }, none, if s.callback = true then 1 else 0)

/-- The loop of `pop` in a series that was canceled. -/
def dropTasks : Nat → SeriesWork T → Option T → Reply T → Option (SeriesWork T × Reply T)
  | _, s, none, reply => some (s, reply)
  | 0, _, some _, _ => none
  | fuel + 1, s, some task, reply =>
      let (s, next, callbacks) := s.popTask
      dropTasks fuel s next
        { reply with deleted := reply.deleted ++ [task], callbacks := reply.callbacks + callbacks }

def pop (s : SeriesWork T) : Option (SeriesWork T × Reply T) :=
  let canceled := s.canceled
  let (s, task, callbacks) := s.popTask
  if canceled = true then
    s.dropTasks (s.queueSize + 1) task { task := none, deleted := [], callbacks := callbacks }
  else some (s, { task := task, deleted := [], callbacks := callbacks })

def cancel (s : SeriesWork T) : SeriesWork T := { s with canceled := true }

end SeriesWork

inductive SeriesOp (T : Type*) where
  | pushBack (task : T)
  | pushFront (task : T)
  | pop
  | cancel
  deriving DecidableEq, Repr

namespace SeriesWork

variable {T : Type*}

def step (s : SeriesWork T) : SeriesOp T → Option (SeriesWork T × Reply T)
  | .pushBack task => do
      let s ← s.pushBack task
      some (s, .nothing)
  | .pushFront task => do
      let s ← s.pushFront task
      some (s, .nothing)
  | .pop => s.pop
  | .cancel => some (s.cancel, .nothing)

/-- The calls in turn with their replies. A series that is gone takes no more calls. -/
def run (s : SeriesWork T) : List (SeriesOp T) → Option (SeriesWork T × List (Reply T))
  | [] => some (s, [])
  | op :: ops =>
      if s.gone = true then none
      else do
        let (s, reply) ← s.step op
        let (s, replies) ← s.run ops
        some (s, reply :: replies)

end SeriesWork

/-- What a series is for: the tasks in their order, without a ring. -/
structure TaskDeque (T : Type*) where
  tasks : List T
  last : Option T
  inParallel : Bool
  canceled : Bool
  callback : Bool
  gone : Bool
  deriving DecidableEq, Repr

namespace TaskDeque

variable {T : Type*}

def create (last : Option T) (inParallel callback : Bool) : TaskDeque T :=
  { tasks := [], last := last, inParallel := inParallel, canceled := false, callback := callback, gone := false }

def finish (d : TaskDeque T) : TaskDeque T := { d with tasks := [], last := none, gone := !d.inParallel }

def callbacks (d : TaskDeque T) : Nat := if d.callback = true then 1 else 0

/-- The first of the tasks is returned, or else the last task, or else nothing; of a series that was canceled,
nothing is returned and all that is left is deleted. -/
def pop (d : TaskDeque T) : TaskDeque T × Reply T :=
  if d.canceled = true then
    (d.finish, { task := none, deleted := d.tasks ++ d.last.toList, callbacks := d.callbacks })
  else
    match d.tasks, d.last with
    | task :: tasks, _ => ({ d with tasks := tasks }, { task := some task, deleted := [], callbacks := 0 })
    | [], some last => ({ d with last := none }, { task := some last, deleted := [], callbacks := 0 })
    | [], none => (d.finish, { task := none, deleted := [], callbacks := d.callbacks })

def step (d : TaskDeque T) : SeriesOp T → TaskDeque T × Reply T
  | .pushBack task => ({ d with tasks := d.tasks ++ [task] }, .nothing)
  | .pushFront task => ({ d with tasks := task :: d.tasks }, .nothing)
  | .pop => d.pop
  | .cancel => ({ d with canceled := true }, .nothing)

def run (d : TaskDeque T) : List (SeriesOp T) → Option (TaskDeque T × List (Reply T))
  | [] => some (d, [])
  | op :: ops =>
      if d.gone = true then none
      else do
        let (d', replies) ← (d.step op).1.run ops
        some (d', (d.step op).2 :: replies)

end TaskDeque

end WorkflowModel.Factory
