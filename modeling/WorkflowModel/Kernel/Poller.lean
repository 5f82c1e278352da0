import Mathlib.Logic.Function.Basic
import Mathlib.Data.List.Nodup
import Mathlib.Algebra.Group.Nat.Defs

/-!
# The poller

A poller watches file descriptors for its users. Its table `nodes` has one node for each watched
descriptor, `epoll` knows the descriptor with a pointer to the node, and the node is in one of three
structures by its deadline: a sorted list, a tree for the nodes that come out of order, and the list of
nodes without a deadline. A user who removes a node sends it to the poller thread through a pipe, and the
thread hands over every node that is done to the result queue.

A node is known by its number, in the order of creation. The red-black tree is kept as its sequence in
order. `log` records the calls that the properties speak of. Sections under the lock of the poller are
one step, and so is each call of `__poller_add_result`; one that waits for room in the queue is a step that
has not happened yet.
-/

namespace WorkflowModel.Kernel

structure Timespec where
  sec : Int
  nsec : Int
  deriving DecidableEq, Repr

inductive Operation where
  | read
  | write
  | listen
  | connect
  | event
  | notify
  | timer
  deriving DecidableEq, Repr

inductive ResultState where
  | success
  | finished
  | error
  | deleted
  | modified
  | stopped
  deriving DecidableEq, Repr

inductive Errno where
  | ebadf
  | emfile
  | einval
  | eexist
  | enoent
  deriving DecidableEq, Repr

def etimedout : Int := 110

def epollin : Nat := 1

def epollout : Nat := 4

def epollet : Nat := 2 ^ 31

def pollerBufsize : Nat := 256 * 1024

def pollerEventsMax : Nat := 256

structure PollerData where
  operation : Operation
  fd : Int

/-- `state` and `error` are unset until the node is done. -/
structure PollerNode where
  state : Option ResultState
  error : Option Int
  operation : Operation
  fd : Int
  inRbtree : Bool
  removed : Bool
  event : Nat
  timeout : Timespec

/-- An entry of the table. `reserved` is `POLLER_NODE_ERROR`. -/
inductive Slot where
  | empty
  | reserved
  | node (n : Nat)
  deriving DecidableEq, Repr

/-- The pointer that is registered with a descriptor: NULL for the timer and 1 for the pipe. -/
inductive EventData where
  | timer
  | pipe
  | node (n : Nat)
  deriving DecidableEq, Repr

/-- The calls that are recorded. `message` is a result of its own for a complete message. -/
inductive Action where
  | setTimer
  | wait (events : List EventData)
  | handleRead (n : Nat)
  | handleConnect (n : Nat)
  | removeNode (n : Nat)
  | readPipe (pointers : List (Option Nat))
  | message (n : Nat)
  | addResult (n : Nat) (state : Option ResultState) (error : Option Int)
  deriving DecidableEq, Repr

structure Poller where
  maxOpenFiles : Nat
  pipeRd : Nat
  pipeWr : Nat
  node : Nat → PollerNode
  count : Nat
  nodes : Nat → Slot
  interest : Nat → Option (EventData × Nat)
  timeoTree : List Nat
  treeFirst : Option Nat
  timeoList : List Nat
  noTimeoList : List Nat
  pipe : List (Option Nat)
  timer : Timespec
  stopped : Bool
  log : List Action

/-- The descriptors that a poller opens for itself. -/
structure Descriptors where
  pfd : Nat
  timerfd : Nat
  pipeRd : Nat
  pipeWr : Nat
  distinct : [pfd, timerfd, pipeRd, pipeWr].Nodup

/-- The poller after `poller_create` and `poller_start`. -/
def startedPoller (fds : Descriptors) (maxOpenFiles : Nat) : Poller where
  maxOpenFiles := if maxOpenFiles = 0 then 65536 else maxOpenFiles
  pipeRd := fds.pipeRd
  pipeWr := fds.pipeWr
  node := fun _ => ⟨none, none, .timer, -1, false, false, 0, ⟨0, 0⟩⟩
  count := 0
  nodes := fun fd =>
    if fd ∈ [fds.pfd, fds.timerfd, fds.pipeRd, fds.pipeWr] then .reserved else .empty
  interest := fun fd =>
    if fd = fds.timerfd then some (.timer, epollin)
    else if fd = fds.pipeRd then some (.pipe, epollin)
    else none
  timeoTree := []
  treeFirst := none
  timeoList := []
  noTimeoList := []
  pipe := []
  timer := ⟨0, 0⟩
  stopped := false
  log := []

namespace Poller

/-- `epoll_ctl` with `EPOLL_CTL_ADD`. -/
def addFd (fd event : Nat) (data : EventData) (p : Poller) : Poller :=
  { p with interest := Function.update p.interest fd (some (data, event)) }

/-- `epoll_ctl` with `EPOLL_CTL_DEL`. -/
def delFd (fd : Nat) (p : Poller) : Poller :=
  { p with interest := Function.update p.interest fd none }

def setSlot (fd : Nat) (slot : Slot) (p : Poller) : Poller :=
  { p with nodes := Function.update p.nodes fd slot }

def setNode (n : Nat) (node : PollerNode) (p : Poller) : Poller :=
  { p with node := Function.update p.node n node }

def record (action : Action) (p : Poller) : Poller := { p with log := p.log ++ [action] }

def addResult (n : Nat) (p : Poller) : Poller :=
  p.record (.addResult n (p.node n).state (p.node n).error)

def setResult (n : Nat) (state : ResultState) (error : Int) (p : Poller) : Poller :=
  p.setNode n { p.node n with state := some state, error := some error }

def timeoutCmp (a b : Timespec) : Int := if a.sec - b.sec = 0 then a.nsec - b.nsec else a.sec - b.sec

def carry (t : Timespec) : Timespec :=
  if 1000000000 ≤ t.nsec then ⟨t.sec + 1, t.nsec - 1000000000⟩ else t

/-- `__poller_node_set_timeout`, in milliseconds from `now`. -/
def deadline (now : Timespec) (timeout : Int) : Timespec :=
  carry ⟨now.sec + timeout / 1000, now.nsec + timeout % 1000 * 1000000⟩

/-- The node that follows `n` in the tree. -/
def rbNext (n : Nat) (tree : List Nat) : Option Nat := (tree.dropWhile (· ≠ n)).tail.head?

/-- `__poller_tree_insert`. The node goes behind all that are not later. -/
def treeInsert (n : Nat) (p : Poller) : Poller :=
  let notLater := p.timeoTree.takeWhile fun entry =>
    ¬ timeoutCmp (p.node n).timeout (p.node entry).timeout < 0
  let later := p.timeoTree.dropWhile fun entry =>
    ¬ timeoutCmp (p.node n).timeout (p.node entry).timeout < 0
  let p := p.setNode n { p.node n with inRbtree := true }
  { p with
    timeoTree := notLater ++ n :: later
    treeFirst := if notLater = [] then some n else p.treeFirst }

def treeErase (n : Nat) (p : Poller) : Poller :=
  let p := p.setNode n { p.node n with inRbtree := false }
  { p with
    treeFirst := if p.treeFirst = some n then rbNext n p.timeoTree else p.treeFirst
    timeoTree := p.timeoTree.erase n }

/-- The timer is armed for `n` if it is earlier than `other`, or if there is no other node. -/
def armBefore (n : Nat) (other : Option Nat) (p : Poller) : Poller :=
  match other with
  | none => { p with timer := (p.node n).timeout }
  | some other =>
      if timeoutCmp (p.node n).timeout (p.node other).timeout < 0 then
        { p with timer := (p.node n).timeout }
      else
        p

def insertNode (n : Nat) (p : Poller) : Poller :=
  let inOrder :=
    match p.timeoList.getLast? with
    | none => true
    | some last => decide (0 ≤ timeoutCmp (p.node n).timeout (p.node last).timeout)
  let p := if inOrder then { p with timeoList := p.timeoList ++ [n] } else p.treeInsert n
  if p.timeoList.head? = some n then
    p.armBefore n p.treeFirst
  else if p.treeFirst = some n then
    p.armBefore n p.timeoList.head?
  else
    p

/-- The node goes where its deadline belongs, if it has one. -/
def place (n : Nat) (timed : Bool) (p : Poller) : Poller :=
  if timed then p.insertNode n else { p with noTimeoList := p.noTimeoList ++ [n] }

/-- The node leaves its structure. `list_del` takes it out of the list that it is in. -/
def unlink (n : Nat) (p : Poller) : Poller :=
  if (p.node n).inRbtree then
    p.treeErase n
  else
    { p with timeoList := p.timeoList.erase n, noTimeoList := p.noTimeoList.erase n }

/-- `__poller_data_get_event`. It says nothing about other operations. -/
def dataGetEvent : Operation → Option Nat
  | .read => some (epollin ||| epollet)
  | .listen => some (epollin ||| epollet)
  | .connect => some (epollout ||| epollet)
  | _ => none

def fdError (fd : Int) (p : Poller) : Option Errno :=
  if fd < 0 then some .ebadf else if p.maxOpenFiles ≤ fd.toNat then some .emfile else none

/-- A node that is allocated and filled in. -/
def newNode (operation : Operation) (fd : Int) (event : Nat) (timeout : Timespec) : PollerNode :=
  { state := none
    error := none
    operation := operation
    fd := fd
    inRbtree := false
    removed := false
    event := event
    timeout := timeout }

def alloc (node : PollerNode) (p : Poller) : Poller :=
  { p with node := Function.update p.node p.count node, count := p.count + 1 }

/-- The node is marked as removed and written to the pipe. -/
def send (n : Nat) (p : Poller) : Poller :=
  { p.setNode n { p.node n with removed := true } with pipe := p.pipe ++ [some n] }

/-- A node that a user takes away: the thread hands it over, unless there is no thread. -/
def retire (n : Nat) (state : ResultState) (p : Poller) : Poller :=
  let p := p.setResult n state 0
  if p.stopped then p.addResult n else p.send n

/-- `poller_add` for an operation that has events. No value is given where the source has none. -/
def add (data : PollerData) (timeout : Int) (now : Timespec) (p : Poller) :
    Option (Except Errno Unit × Poller) :=
  match p.fdError data.fd, dataGetEvent data.operation with
  | some error, _ => some (.error error, p)
  | none, none => none
  | none, some event =>
      match p.nodes data.fd.toNat with
      | .empty =>
          let n := p.count
          let p := p.alloc (newNode data.operation data.fd event (deadline now timeout))
          let p := p.addFd data.fd.toNat event (.node n)
          let p := p.place n (0 ≤ timeout)
          some (.ok (), p.setSlot data.fd.toNat (.node n))
      | .reserved => some (.error .einval, p)
      | .node _ => some (.error .eexist, p)

/-- `poller_del`. A reserved entry is used as a pointer. -/
def del (fd : Int) (p : Poller) : Option (Except Errno Unit × Poller) :=
  match p.fdError fd with
  | some error => some (.error error, p)
  | none =>
      match p.nodes fd.toNat with
      | .empty => some (.error .enoent, p)
      | .reserved => none
      | .node n =>
          let p := p.setSlot fd.toNat .empty
          let p := (p.unlink n).delFd fd.toNat
          some (.ok (), p.retire n .deleted)

/-- `poller_mod`. The registration with `epoll` is left alone. -/
def mod (data : PollerData) (timeout : Int) (now : Timespec) (p : Poller) :
    Option (Except Errno Unit × Poller) :=
  match p.fdError data.fd, dataGetEvent data.operation with
  | some error, _ => some (.error error, p)
  | none, none => none
  | none, some event =>
      match p.nodes data.fd.toNat with
      | .node old =>
          let p := (p.unlink old).retire old .modified
          let n := p.count
          let p := p.alloc (newNode data.operation data.fd event (deadline now timeout))
          let p := p.place n (0 ≤ timeout)
          some (.ok (), p.setSlot data.fd.toNat (.node n))
      | .reserved => some (.error .einval, p)
      | .empty => some (.error .enoent, p)

def setTimeout (fd : Int) (timeout : Int) (now : Timespec) (p : Poller) :
    Option (Except Errno Unit × Poller) :=
  match p.fdError fd with
  | some error => some (.error error, p)
  | none =>
      match p.nodes fd.toNat with
      | .empty => some (.error .enoent, p)
      | .reserved => none
      | .node n =>
          let p := p.unlink n
          let p :=
            if 0 ≤ timeout then p.setNode n { p.node n with timeout := deadline now timeout } else p
          some (.ok (), p.place n (0 ≤ timeout))

def addTimer (value now : Timespec) (p : Poller) : Poller :=
  let n := p.count
  let p := p.alloc (newNode .timer (-1) 0 (carry ⟨now.sec + value.sec, now.nsec + value.nsec⟩))
  p.insertNode n

def setTimer (p : Poller) : Poller :=
  let first :=
    match p.timeoList.head?, p.treeFirst with
    | none, first => first
    | some node, none => some node
    | some node, some first =>
        if timeoutCmp (p.node first).timeout (p.node node).timeout < 0 then some first else some node
  match first with
  | none => { p with timer := ⟨0, 0⟩ }
  | some n => { p with timer := (p.node n).timeout }

def forget (fd : Int) (p : Poller) : Poller :=
  if 0 ≤ fd then (p.setSlot fd.toNat .empty).delFd fd.toNat else p

/-- `__poller_remove_node`, with the value of `removed` that it returns. -/
def removeNode (n : Nat) (p : Poller) : Bool × Poller :=
  if (p.node n).removed then
    (true, p)
  else
    let p := p.setSlot (p.node n).fd.toNat .empty
    (false, (p.unlink n).delFd (p.node n).fd.toNat)

/-- The loop of `__poller_handle_timeout` over the list. -/
def expireList (now : Timespec) : List Nat → Poller → List Nat × Poller
  | [], p => ([], p)
  | n :: rest, p =>
      if timeoutCmp (p.node n).timeout now < 0 then
        let p := { p.forget (p.node n).fd with timeoList := p.timeoList.erase n }
        let result := expireList now rest p
        (n :: result.1, result.2)
      else
        ([], p)

/-- The loop of `__poller_handle_timeout` over the tree. Every round takes a node from the tree. -/
def expireTree (now : Timespec) : Nat → Poller → List Nat × Poller
  | 0, p => ([], p)
  | fuel + 1, p =>
      match p.treeFirst with
      | none => ([], p)
      | some n =>
          if timeoutCmp (p.node n).timeout now < 0 then
            let p := { p.forget (p.node n).fd with
              treeFirst := rbNext n p.timeoTree
              timeoTree := p.timeoTree.erase n }
            let result := expireTree now fuel p
            (n :: result.1, result.2)
          else
            ([], p)

/-- The part of `__poller_handle_timeout` under the lock, with the nodes that have expired. -/
def expire (now : Timespec) (p : Poller) : List Nat × Poller :=
  let fromList := expireList now p.timeoList p
  let fromTree := expireTree now fromList.2.timeoTree.length fromList.2
  (fromList.1 ++ fromTree.1, fromTree.2)

/-- The pointers that one `read` takes from the pipe. -/
def readPipe (p : Poller) : List (Option Nat) × Poller :=
  (p.pipe.take (pollerBufsize / 8), { p with pipe := p.pipe.drop (pollerBufsize / 8) })

/-- The order in which `poller_stop` finds the nodes at the root of the tree. -/
structure RootOrder where
  run : List Nat → List Nat
  perm : ∀ l, (run l).Perm l

/-- The results for the pointers from the pipe. -/
def addResults (pointers : List (Option Nat)) (p : Poller) : Poller :=
  pointers.foldl (fun p pointer => match pointer with
    | some n => p.addResult n
    | none => p) p

/-- One round of the last loop of `poller_stop`. -/
def stopNode (n : Nat) (p : Poller) : Poller :=
  let p := p.addResult n
  let p := p.forget (p.node n).fd
  let p := p.setResult n .stopped 0
  p.addResult n

/-- `poller_stop` after the thread has been joined. -/
def drain (order : RootOrder) (p : Poller) : Poller :=
  let p := { p with stopped := true }
  let p := (p.setSlot p.pipeRd .empty).setSlot p.pipeWr .empty
  let fromPipe := p.readPipe
  let p := addResults fromPipe.1 fromPipe.2
  let p := { p.delFd p.pipeRd with pipe := [] }
  let all := p.noTimeoList ++ ((order.run p.timeoTree).reverse ++ p.timeoList)
  let p := { p with treeFirst := none, timeoTree := [], timeoList := [], noTimeoList := [] }
  all.foldl (fun p n => p.stopNode n) p

end Poller

end WorkflowModel.Kernel
