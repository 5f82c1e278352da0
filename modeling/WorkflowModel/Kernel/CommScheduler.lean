import WorkflowModel.CString
import WorkflowModel.Lib.BinaryHeap

/-!
# The scheduler of connections

A target admits as many connections at a time as its `max_load` says. Targets may be put in a group, which
hands out a connection to the member with the least ratio of `cur_load` to `max_load`. The group keeps its
members in a binary heap by this ratio, and its own two loads are the sums of theirs.

A thread that finds no free connection waits on the condition of the target or of the group. `wait_cnt`
counts the threads from the moment they wait until they run again, so it counts those that a signal or a
timeout has woken but that have not run yet. A step is one section under the mutex of the group, or of the
target when it has no group; a thread that waits leaves the section, and its return from the wait is a step
of its own. Targets and groups are known by numbers. `held` counts the connections that were handed out and
not released.
-/

namespace WorkflowModel.Kernel.CommScheduler

open BinaryHeap

inductive Wake where
  | asleep
  | signalled
  | expired
  deriving DecidableEq, Repr

/-- A thread in `PTHREAD_COND_TIMEDWAIT`; it is timed if `abstime` is not `NULL`. -/
structure Waiter where
  timed : Bool
  wake : Wake
  deriving DecidableEq, Repr

def sleeping (waiters : List Waiter) : Nat := waiters.countP fun w => w.wake = .asleep

/-- The threads that have been woken and not run yet. -/
def woken (waiters : List Waiter) : Nat := waiters.countP fun w => w.wake ≠ .asleep

/-- `pthread_cond_signal` wakes one of the sleeping threads, if there is one: the one with the number
`pick` among them, or the last one. -/
def condSignal : Nat → List Waiter → List Waiter
  | _, [] => []
  | pick, w :: rest =>
      if w.wake = .asleep then
        if pick = 0 ∨ sleeping rest = 0 then { w with wake := .signalled } :: rest
        else w :: condSignal (pick - 1) rest
      else
        w :: condSignal pick rest

/-- The thread with the number `i` is timed out. -/
def condExpire (i : Nat) (waiters : List Waiter) : List Waiter :=
  match waiters[i]? with
  | some w =>
      if w.wake = .asleep ∧ w.timed = true then waiters.set i { w with wake := .expired } else waiters
  | none => waiters

inductive SchedErrno where
  | eagain
  | etimedout
  | einval
  | eexist
  | enoent
  | ebusy
  | enomem
  deriving DecidableEq, Repr

structure SchedTarget where
  maxLoad : Nat
  curLoad : Nat
  group : Option Nat
  index : Nat
  waitCnt : Nat
  waiters : List Waiter

structure SchedGroup where
  maxLoad : Nat
  curLoad : Nat
  tgHeap : Nat → Nat
  heapSize : Nat
  heapBufSize : Nat
  waitCnt : Nat
  waiters : List Waiter

def commgroupInitSize : Nat := 4

/-- A target without connections, waiters or a group. -/
def SchedTarget.fresh (maxConnections : Nat) : SchedTarget :=
  { maxLoad := maxConnections, curLoad := 0, group := none, index := 0, waitCnt := 0, waiters := [] }

def SchedTarget.init (maxConnections : Nat) : Except SchedErrno SchedTarget :=
  if maxConnections = 0 then .error .einval
  else .ok (fresh maxConnections)

def SchedGroup.init : SchedGroup :=
  { maxLoad := 0, curLoad := 0, tgHeap := fun _ => 0, heapSize := 0, heapBufSize := commgroupInitSize,
    waitCnt := 0, waiters := [] }

structure Scheduler where
  targets : Nat → SchedTarget
  groups : Nat → SchedGroup

/-- What a section leaves its thread with. -/
inductive Reply where
  | target (t : Nat)
  | errno (e : SchedErrno)
  | waiting
  | done
  | nothing
  deriving DecidableEq, Repr

namespace Scheduler

def setTarget (t : Nat) (target : SchedTarget) (s : Scheduler) : Scheduler :=
  { s with targets := Function.update s.targets t target }

def setGroup (g : Nat) (group : SchedGroup) (s : Scheduler) : Scheduler :=
  { s with groups := Function.update s.groups g group }

/-- `CommSchedGroup::target_cmp`, with the products of `size_t`. -/
def targetCmp (target1 target2 : SchedTarget) : Int :=
  let load1 := sizeMul target1.curLoad target2.maxLoad
  let load2 := sizeMul target2.curLoad target1.maxLoad
  if load1 < load2 then -1
  else if load1 > load2 then 1
  else 0

def before (s : Scheduler) (t1 t2 : Nat) : Bool := targetCmp (s.targets t1) (s.targets t2) < 0

/-- `tg_heap` of the group, with the `index` of the targets. -/
def slots (s : Scheduler) (g : Nat) : Slots Nat :=
  { heap := (s.groups g).tgHeap, index := fun t => (s.targets t).index }

def setSlots (g : Nat) (slots : Slots Nat) (s : Scheduler) : Scheduler :=
  { targets := fun t => { s.targets t with index := slots.index t }
    groups := Function.update s.groups g { s.groups g with tgHeap := slots.heap } }

/-- `CommSchedGroup::heap_adjust`: the target at `index` goes up. -/
def heapAdjust (g index : Nat) (s : Scheduler) : Scheduler :=
  s.setSlots g (siftUp s.before index (s.slots g))

/-- `CommSchedGroup::heapify`: the target at `top` goes down. -/
def heapify (g top : Nat) (s : Scheduler) : Scheduler :=
  s.setSlots g (siftDown s.before (s.groups g).heapSize top (s.slots g))

/-- `CommSchedGroup::heap_insert`. The outcome of `realloc` is part of the input. -/
def heapInsert (g t : Nat) (realloc : Bool) (s : Scheduler) : Option Scheduler :=
  let group := s.groups g
  if group.heapSize = group.heapBufSize ∧ realloc = false then
    none
  else
    let s := s.setGroup g { group with
      heapBufSize :=
        if group.heapSize = group.heapBufSize then 2 * group.heapBufSize else group.heapBufSize }
    let s := s.setSlots g ((s.slots g).put group.heapSize t)
    let s := s.heapAdjust g group.heapSize
    some (s.setGroup g { s.groups g with heapSize := (s.groups g).heapSize + 1 })

def heapRemove (g index : Nat) (s : Scheduler) : Scheduler :=
  let s := s.setGroup g { s.groups g with heapSize := (s.groups g).heapSize - 1 }
  let size := (s.groups g).heapSize
  if index ≠ size then
    let target := (s.groups g).tgHeap size
    let s := s.setSlots g ((s.slots g).put index target)
    let s := s.heapAdjust g index
    s.heapify g (s.targets target).index
  else
    s

/-- The end of `CommSchedTarget::acquire`, where a connection is free. -/
def targetTake (t : Nat) (s : Scheduler) : Scheduler :=
  let s := s.setTarget t { s.targets t with curLoad := sizeAdd (s.targets t).curLoad 1 }
  match (s.targets t).group with
  | none => s
  | some g =>
      let s := s.setGroup g { s.groups g with curLoad := sizeAdd (s.groups g).curLoad 1 }
      s.heapify g (s.targets t).index

/-- The thread goes into `PTHREAD_COND_TIMEDWAIT` on the condition of the target. -/
def targetWait (t : Nat) (timed : Bool) (s : Scheduler) : Scheduler :=
  let target := s.targets t
  s.setTarget t { target with
    waitCnt := target.waitCnt + 1
    waiters := target.waiters ++ [{ timed := timed, wake := .asleep }] }

def targetLeave (t i : Nat) (s : Scheduler) : Scheduler :=
  let target := s.targets t
  s.setTarget t { target with waitCnt := target.waitCnt - 1, waiters := target.waiters.eraseIdx i }

def targetSignal (t pick : Nat) (s : Scheduler) : Scheduler :=
  s.setTarget t { s.targets t with waiters := condSignal pick (s.targets t).waiters }

def targetExpire (t i : Nat) (s : Scheduler) : Scheduler :=
  s.setTarget t { s.targets t with waiters := condExpire i (s.targets t).waiters }

/-- `CommSchedTarget::acquire`, until the thread returns or waits. -/
def targetAcquire (t : Nat) (waitTimeout : Int) (s : Scheduler) : Scheduler × Reply :=
  if (s.targets t).curLoad ≥ (s.targets t).maxLoad then
    if waitTimeout ≠ 0 then (s.targetWait t (0 ≤ waitTimeout), .waiting)
    else (s, .errno .eagain)
  else
    (s.targetTake t, .target t)

/-- The thread with the number `i` returns from its wait in `CommSchedTarget::acquire`. The loop goes on
after a signal that found no free connection. -/
def targetResume (t i : Nat) (s : Scheduler) : Scheduler × Reply :=
  match (s.targets t).waiters[i]? with
  | none => (s, .nothing)
  | some w =>
      if w.wake = .asleep then
        (s, .nothing)
      else
        let s := s.targetLeave t i
        if (s.targets t).curLoad ≥ (s.targets t).maxLoad then
          if w.wake = .signalled then (s.targetWait t w.timed, .waiting)
          else (s, .errno .etimedout)
        else
          (s.targetTake t, .target t)

def groupSignal (g pick : Nat) (s : Scheduler) : Scheduler :=
  s.setGroup g { s.groups g with waiters := condSignal pick (s.groups g).waiters }

/-- `CommSchedTarget::release`. At most one of the two conditions is signalled. -/
def release (t pick : Nat) (s : Scheduler) : Scheduler :=
  let s := s.setTarget t { s.targets t with curLoad := sizeSub (s.targets t).curLoad 1 }
  let s := if (s.targets t).waitCnt > 0 then s.targetSignal t pick else s
  match (s.targets t).group with
  | none => s
  | some g =>
      let s := s.setGroup g { s.groups g with curLoad := sizeSub (s.groups g).curLoad 1 }
      let s :=
        if (s.targets t).waitCnt = 0 ∧ (s.groups g).waitCnt > 0 then s.groupSignal g pick else s
      s.heapAdjust g (s.targets t).index

/-- The end of `CommSchedGroup::acquire`, where a connection is free. -/
def groupTake (g : Nat) (s : Scheduler) : Scheduler :=
  let target := (s.groups g).tgHeap 0
  let s := s.setTarget target
    { s.targets target with curLoad := sizeAdd (s.targets target).curLoad 1 }
  let s := s.setGroup g { s.groups g with curLoad := sizeAdd (s.groups g).curLoad 1 }
  s.heapify g 0

def groupWait (g : Nat) (timed : Bool) (s : Scheduler) : Scheduler :=
  let group := s.groups g
  s.setGroup g { group with
    waitCnt := group.waitCnt + 1
    waiters := group.waiters ++ [{ timed := timed, wake := .asleep }] }

def groupLeave (g i : Nat) (s : Scheduler) : Scheduler :=
  let group := s.groups g
  s.setGroup g { group with waitCnt := group.waitCnt - 1, waiters := group.waiters.eraseIdx i }

def groupExpire (g i : Nat) (s : Scheduler) : Scheduler :=
  s.setGroup g { s.groups g with waiters := condExpire i (s.groups g).waiters }

/-- `CommSchedGroup::acquire`, until the thread returns or waits. -/
def groupAcquire (g : Nat) (waitTimeout : Int) (s : Scheduler) : Scheduler × Reply :=
  if (s.groups g).curLoad ≥ (s.groups g).maxLoad then
    if waitTimeout ≠ 0 then (s.groupWait g (0 ≤ waitTimeout), .waiting)
    else (s, .errno .eagain)
  else
    (s.groupTake g, .target ((s.groups g).tgHeap 0))

/-- The thread with the number `i` returns from its wait in `CommSchedGroup::acquire`. -/
def groupResume (g i : Nat) (s : Scheduler) : Scheduler × Reply :=
  match (s.groups g).waiters[i]? with
  | none => (s, .nothing)
  | some w =>
      if w.wake = .asleep then
        (s, .nothing)
      else
        let s := s.groupLeave g i
        if (s.groups g).curLoad ≥ (s.groups g).maxLoad then
          if w.wake = .signalled then (s.groupWait g w.timed, .waiting)
          else (s, .errno .etimedout)
        else
          (s.groupTake g, .target ((s.groups g).tgHeap 0))

def add (g t : Nat) (realloc : Bool) (pick : Nat) (s : Scheduler) : Scheduler × Reply :=
  if (s.targets t).group = none ∧ (s.targets t).waitCnt = 0 then
    match s.heapInsert g t realloc with
    | none => (s, .errno .enomem)
    | some s =>
        let s := s.setTarget t { s.targets t with group := some g }
        let s := s.setGroup g { s.groups g with
          maxLoad := sizeAdd (s.groups g).maxLoad (s.targets t).maxLoad
          curLoad := sizeAdd (s.groups g).curLoad (s.targets t).curLoad }
        if (s.groups g).waitCnt > 0 ∧ (s.groups g).curLoad < (s.groups g).maxLoad then
          (s.groupSignal g pick, .done)
        else
          (s, .done)
  else if (s.targets t).group = some g then (s, .errno .eexist)
  else if (s.targets t).group ≠ none then (s, .errno .einval)
  else (s, .errno .ebusy)

def remove (g t : Nat) (s : Scheduler) : Scheduler × Reply :=
  if (s.targets t).group = some g ∧ (s.targets t).waitCnt = 0 then
    let s := s.heapRemove g (s.targets t).index
    let s := s.setGroup g { s.groups g with
      maxLoad := sizeSub (s.groups g).maxLoad (s.targets t).maxLoad
      curLoad := sizeSub (s.groups g).curLoad (s.targets t).curLoad }
    (s.setTarget t { s.targets t with group := none }, .done)
  else if (s.targets t).group ≠ some g then (s, .errno .enoent)
  else (s, .errno .ebusy)

end Scheduler

/-- A step of some thread. The choices that the operating system makes are part of it: the thread that a
signal wakes, and whether there is memory. -/
inductive Op where
  | targetAcquire (t : Nat) (waitTimeout : Int)
  | targetResume (t i : Nat)
  | targetExpire (t i : Nat)
  | release (t pick : Nat)
  | groupAcquire (g : Nat) (waitTimeout : Int)
  | groupResume (g i : Nat)
  | groupExpire (g i : Nat)
  | add (g t : Nat) (realloc : Bool) (pick : Nat)
  | remove (g t : Nat)
  deriving DecidableEq, Repr

structure State where
  sched : Scheduler
  held : Nat → Nat

namespace State

/-- The connection that was handed out is held from now on. -/
def grant (result : Scheduler × Reply) (held : Nat → Nat) : State :=
  { sched := result.1
    held := match result.2 with
      | .target t => Function.update held t (held t + 1)
      | _ => held }

/-- One step. Only a connection that is held is released. -/
def step (s : State) : Op → State
  | .targetAcquire t waitTimeout => grant (s.sched.targetAcquire t waitTimeout) s.held
  | .targetResume t i => grant (s.sched.targetResume t i) s.held
  | .targetExpire t i => { s with sched := s.sched.targetExpire t i }
  | .release t pick =>
      if 0 < s.held t then
        { sched := s.sched.release t pick, held := Function.update s.held t (s.held t - 1) }
      else
        s
  | .groupAcquire g waitTimeout => grant (s.sched.groupAcquire g waitTimeout) s.held
  | .groupResume g i => grant (s.sched.groupResume g i) s.held
  | .groupExpire g i => { s with sched := s.sched.groupExpire g i }
  | .add g t realloc pick => { s with sched := (s.sched.add g t realloc pick).1 }
  | .remove g t => { s with sched := (s.sched.remove g t).1 }

end State

/-- The `max_connections` of a target that `CommSchedTarget::init` accepts. -/
abbrev MaxConnections := { n : Nat // 0 < n ∧ n < sizeModulus }

/-- Nothing has happened yet: the targets and groups are as `init` leaves them. -/
def initialState (maxConnections : Nat → MaxConnections) : State :=
  { sched :=
      { targets := fun t => SchedTarget.fresh (maxConnections t).1
        groups := fun _ => SchedGroup.init }
    held := fun _ => 0 }

/-- The states of the runs whose steps are all allowed. -/
inductive Reached (allowed : State → Op → Prop) (maxConnections : Nat → MaxConnections) : State → Prop
  | init : Reached allowed maxConnections (initialState maxConnections)
  | step {s : State} (op : Op) : Reached allowed maxConnections s → allowed s op →
      Reached allowed maxConnections (s.step op)

end WorkflowModel.Kernel.CommScheduler
