import Mathlib.Logic.Function.Basic

/-!
# The result queue

The pollers put their results into the list that `put_list` points to, and the threads of the handler take them
from the list that `get_list` points to. A thread that finds its list empty swaps the two: it writes `get_list` first,
waits under the other lock until there is a result, and then writes `put_list`, so for a while
both point to the same list and the pollers go on putting results into it.

Results, pollers and threads are known by numbers. A result is a node that is in memory once, so `res_cnt`
does not wrap around. A thread that waits for a condition is one whose step has not happened yet.
-/

namespace WorkflowModel.Kernel.ResultQueue

/-- The two lists that the pointers of the queue can point to. -/
inductive ResList where
  | resList1
  | resList2
  deriving DecidableEq, Repr

def ResList.other : ResList → ResList
  | .resList1 => .resList2
  | .resList2 => .resList1

/-- What the thread that has `get_mutex` is doing: it has written `get_list` and remembers the list before, or it
has come back from `__poller_queue_swap` with a count. -/
inductive Getter where
  | free
  | swapping (thread : Nat) (getList : ResList)
  | swapped (thread cnt : Nat)
  deriving DecidableEq, Repr

/-- A result is put with the flag of its poller as it was then. -/
inductive Entry where
  | put (res : Nat) (stopping : Bool)
  | swapped
  | got (thread res : Nat)
  | enoent (thread : Nat)
  deriving DecidableEq, Repr

structure State where
  resMax : UInt64
  lists : ResList → List Nat
  getList : ResList
  putList : ResList
  resCnt : Nat
  nonblock : Bool
  stopping : Nat → Bool
  getter : Getter
  log : List Entry

/-- `poller_queue_create`. The pollers that will use the queue have not been started. -/
def create (maxlen : UInt64) : State :=
  { resMax := maxlen, lists := fun _ => [], getList := .resList1, putList := .resList2, resCnt := 0, nonblock := false,
    stopping := fun _ => true, getter := .free, log := [] }

/-- The condition under which a poller waits or is woken: the comparison is in `size_t`. -/
def State.full (s : State) : Prop := s.resCnt > (s.resMax - 1).toNat

instance (s : State) : Decidable s.full := inferInstanceAs (Decidable (_ > _))

/-- The section of `__poller_add_result`, when its loop is over. -/
def addResult (s : State) (poller res : Nat) : Option State :=
  if s.full ∧ s.stopping poller = false then none
  else some { s with
    lists := Function.update s.lists s.putList (s.lists s.putList ++ [res]),
    resCnt := s.resCnt + 1, log := s.log ++ [.put res (s.stopping poller)] }

/-- `list_entry` and `list_del` on the first node of `get_list`. There has to be one. -/
def takeFirst (s : State) (thread : Nat) : Option State :=
  match s.lists s.getList with
  | res :: rest => some { s with
      lists := Function.update s.lists s.getList rest, log := s.log ++ [.got thread res] }
  | [] => none

/-- The start of `poller_queue_get`, to its end if the list has a result, else to the first write of the swap. -/
def queueGet (s : State) (thread : Nat) : Option State :=
  if s.lists s.getList ≠ [] then takeFirst s thread
  else some { s with getList := s.putList, getter := .swapping thread s.getList }

/-- The section of `__poller_queue_swap`, when its loop is over. -/
def queueSwap (s : State) (thread : Nat) (getList : ResList) : Option State :=
  if s.resCnt = 0 ∧ s.nonblock = false then none
  else some { s with
    putList := getList, resCnt := 0, getter := .swapped thread s.resCnt, log := s.log ++ [.swapped] }

/-- The end of `poller_queue_get` after a swap. -/
def afterSwap (s : State) (thread cnt : Nat) : Option State :=
  let s := { s with getter := Getter.free }
  if cnt > 0 then takeFirst s thread else some { s with log := s.log ++ [.enoent thread] }

inductive Turn where
  | addResult (poller res : Nat)
  | queueGet (thread : Nat)
  | queueSwap (thread : Nat)
  | afterSwap (thread : Nat)
  | setNonblock (nonblock : Bool)
  | setStopping (poller : Nat) (stopping : Bool)
  deriving DecidableEq, Repr

/-- The last two are `poller_queue_set_nonblock` and `poller_queue_set_block`, and what `poller_start` and
`poller_stop` do to the flag that `__poller_add_result` reads. -/
def step (s : State) : Turn → Option State
  | .addResult poller res => addResult s poller res
  | .queueGet thread =>
      match s.getter with
      | .free => queueGet s thread
      | _ => none
  | .queueSwap thread =>
      match s.getter with
      | .swapping t getList => if t = thread then queueSwap s thread getList else none
      | _ => none
  | .afterSwap thread =>
      match s.getter with
      | .swapped t cnt => if t = thread then afterSwap s thread cnt else none
      | _ => none
  | .setNonblock nonblock => some { s with nonblock := nonblock }
  | .setStopping poller stopping => some { s with stopping := Function.update s.stopping poller stopping }

inductive Reached (maxlen : UInt64) : State → Prop where
  | create : Reached maxlen (create maxlen)
  | step {s s' : State} {turn : Turn} : Reached maxlen s → step s turn = some s' → Reached maxlen s'

end WorkflowModel.Kernel.ResultQueue
