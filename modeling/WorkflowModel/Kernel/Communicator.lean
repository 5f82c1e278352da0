import WorkflowModel.Kernel.Poller

/-!
# The client side of the communicator

A session asks for a connection to a target. It gets one that is idle, or a new one that is first connected.
Its message is written at once, and the connection then waits in the poller for the reply. The poller hands
every complete reply and the end of every connection as a result to the handler threads, which tell the
session. A connection that is kept alive goes back to the idle list of its target.

Requesting threads, the poller threads and the handler threads take turns. A step is a section under the mutex
of the target, or what a thread does between two such sections to data that others see. The mutex of an
entry is a flag of the entry, because it is kept from one step to the next; the mutex of the target is not,
because no thread keeps it. A call that waits for a mutex is a step that has not happened yet. Of the
poller, an entry knows how it is registered; a registration ends with one result, as in the model of the
poller. A session is known by the number of its request, an entry by the order of creation.
-/

namespace WorkflowModel.Kernel.Communicator

open WorkflowModel.Kernel

def iovMax : Nat := 1024

def encodeIovMax : Nat := 8192

inductive WritevResult where
  | wrote (n : Nat)
  | eagain
  | error (errno : Int)
  deriving DecidableEq, Repr

/-- The loop over the vectors after `writev` wrote `n` bytes: those that are written whole are dropped, and
the next one loses what was written of it. -/
def consume : Nat → List Nat → List Nat
  | _, [] => []
  | n, len :: rest => if len ≤ n then consume (n - len) rest else (len - n) :: rest

/-- The return value of `send_message_sync` for vectors of these lengths: 0 if everything was written, -1
after an error, and else the number of vectors that are left. Without vectors nothing is left to write. -/
def sendMessageSync : List WritevResult → List Nat → Int
  | _, [] => 0
  | [], vectors => vectors.length
  | .eagain :: _, vectors => vectors.length
  | .error _ :: _, _ => -1
  | .wrote n :: results, vectors =>
      let left := consume n vectors
      if left = [] then 0
      else if vectors.length - left.length < iovMax then left.length
      else sendMessageSync results left

/-- What `message_out` and `encode` give, and what the kernel answers to `writev`. -/
inductive Outgoing where
  | noMessage (errno : Int)
  | notEncoded (errno : Int)
  | encoded (vectors : List Nat) (results : List WritevResult) (errno : Int)
  deriving DecidableEq, Repr

/-- `message_out` and then `send_message`. -/
def sendMessage : Outgoing → Int
  | .noMessage _ => -1
  | .notEncoded _ => -1
  | .encoded vectors results _ =>
      if vectors.length > encodeIovMax then -1 else sendMessageSync results vectors

/-- `errno` after a message that was not sent. -/
def Outgoing.errno : Outgoing → Int
  | .noMessage errno => errno
  | .notEncoded errno => errno
  | .encoded _ _ errno => errno

inductive ConnState where
  | connecting
  | connected
  | receiving
  | success
  | idle
  | keepalive
  | closing
  | error
  deriving DecidableEq, Repr

/-- How far a poller thread is with the next message of a connection: it has none, it has passed the mutex in
`create_message`, or the message is there and takes bytes. -/
inductive ReadPhase where
  | none
  | checked
  | message
  deriving DecidableEq, Repr

structure Registration where
  operation : Operation
  phase : ReadPhase
  deriving DecidableEq, Repr

/-- `released` is set by `release_conn`. -/
structure ConnEntry where
  state : ConnState
  error : Int
  ref : Int
  session : Nat
  target : Nat
  mutex : Bool
  node : Option Registration
  released : Bool
  deriving DecidableEq, Repr

structure Result where
  entry : Nat
  operation : Operation
  state : ResultState
  error : Int
  deriving DecidableEq, Repr

/-- Where the thread is that called `request`. -/
inductive RequestPc where
  | launching
  | sending (entry : Nat)
  | unlocking (entry : Nat)
  | accepted
  | refused
  deriving DecidableEq, Repr

structure Session where
  target : Nat
  conn : Option Nat
  timeout : Int
  pc : RequestPc
  deriving DecidableEq, Repr

inductive CsState where
  | success
  | error
  | stopped
  deriving DecidableEq, Repr

/-- A call of `handle` that is to be made. -/
structure Reply where
  session : Nat
  state : CsState
  error : Int
  deriving DecidableEq, Repr

/-- Where a handler thread is. A `direct` thread is in `handle_connect_result` and releases the entry without
looking at `ref`. A thread that unlocks has set `entry` to `NULL` if `alive` does not hold. -/
inductive HandlerPc where
  | waiting
  | took (result : Result)
  | adding (entry : Nat)
  | succeeding (entry session : Nat)
  | unlocking (entry : Nat) (alive : Bool) (reply : Option Reply)
  | releasing (entry : Nat) (reply : Reply) (direct : Bool)
  | handling (entry : Nat) (reply : Reply) (direct : Bool)
  | dropping (entry : Nat)
  | freeing (entry : Nat) (direct : Bool)
  deriving DecidableEq, Repr

/-- A call that the runs are judged by, with the handler thread that makes it. An entry that could not be
added to the poller is released by the requesting thread. -/
inductive Event where
  | release (handler target session : Nat)
  | handle (handler session : Nat) (state : CsState) (error : Int)
  | addRead (handler entry : Nat)
  | releaseConn (handler : Option Nat) (entry : Nat) (ref : Int)
  deriving DecidableEq, Repr

structure State where
  entries : Nat → ConnEntry
  launched : Nat
  sessions : List Session
  idleList : Nat → List Nat
  pipe : List Result
  queue : List Result
  handlers : List HandlerPc
  log : List Event

def econnreset : Int := 104

def ebadmsg : Int := 74

namespace State

def setEntry (e : Nat) (entry : ConnEntry) (s : State) : State :=
  { s with entries := Function.update s.entries e entry }

def setHandler (h : Nat) (pc : HandlerPc) (s : State) : State :=
  { s with handlers := s.handlers.set h pc }

def setSession (σ : Nat) (session : Session) (s : State) : State :=
  { s with sessions := s.sessions.set σ session }

def setIdleList (target : Nat) (entries : List Nat) (s : State) : State :=
  { s with idleList := Function.update s.idleList target entries }

def record (event : Event) (s : State) : State := { s with log := s.log ++ [event] }

/-- `mpoller_del`: the poller thread will hand over the entry with `PR_ST_DELETED`. -/
def mpollerDel (e : Nat) (s : State) : State :=
  match (s.entries e).node with
  | none => s
  | some node =>
      { s.setEntry e { s.entries e with node := none } with
        pipe := s.pipe ++ [{ entry := e, operation := node.operation, state := .deleted, error := 0 }] }

def finish (e : Nat) (operation : Operation) (state : ResultState) (error : Int) (s : State) : State :=
  { s.setEntry e { s.entries e with node := none } with
    queue := s.queue ++ [{ entry := e, operation := operation, state := state, error := error }] }

/-- The connection is established, or it fails or times out. -/
def connectDone (e : Nat) (error : Int) (s : State) : Option State :=
  match (s.entries e).node with
  | some { operation := .connect, phase := _ } =>
      some (s.finish e .connect (if error = 0 then .finished else .error) error)
  | _ => none

/-- The other side closes, or the connection fails or times out. -/
def readDone (e : Nat) (error : Int) (s : State) : Option State :=
  match (s.entries e).node with
  | some { operation := .read, phase := _ } =>
      some (s.finish e .read (if error = 0 then .finished else .error) error)
  | _ => none

/-- The first half of `create_message`: a thread that finds the entry idle waits for its mutex. -/
def readReady (e : Nat) (s : State) : Option State :=
  match (s.entries e).node with
  | some { operation := .read, phase := .none } =>
      if (s.entries e).state = .idle ∧ (s.entries e).mutex = true then none
      else some (s.setEntry e { s.entries e with node := some { operation := .read, phase := .checked } })
  | _ => none

/-- The second half of `create_message`; `created` tells whether `message_in` gave a message. -/
def createMessage (e : Nat) (created : Bool) (errno : Int) (s : State) : Option State :=
  match (s.entries e).node with
  | some { operation := .read, phase := .checked } =>
      if (s.entries e).state ≠ .receiving then some (s.finish e .read .error ebadmsg)
      else if created = true then
        some (s.setEntry e { s.entries e with node := some { operation := .read, phase := .message } })
      else some (s.finish e .read .error errno)
  | _ => none

/-- The reply is complete: `append` with the keep-alive timeout of the session, and the result. -/
def append (e : Nat) (timeout : Int) (s : State) : Option State :=
  match (s.entries e).node with
  | some { operation := .read, phase := .message } =>
      let s := s.setEntry e { s.entries e with
        state := .success, node := some { operation := .read, phase := .none } }
      let s := { s with sessions :=
        s.sessions.modify (s.entries e).session fun session => { session with timeout := timeout } }
      let s := if timeout = 0 then s.mpollerDel e else s
      some { s with queue :=
        s.queue ++ [{ entry := e, operation := .read, state := .success, error := 0 }] }
  | _ => none

def deliver (s : State) : Option State :=
  match s.pipe with
  | [] => none
  | result :: rest => some { s with pipe := rest, queue := s.queue ++ [result] }

/-- `request` of a new session, with the section of `request_idle_conn` under the mutex of the target. A
connection can be taken if the poller still has it. -/
def request (target : Nat) (s : State) : Option State :=
  match (s.idleList target).find? fun e => (s.entries e).node.isSome with
  | some e =>
      if (s.entries e).mutex = true then none
      else
        let s := s.setEntry e { s.entries e with mutex := true }
        let s := s.setIdleList target ((s.idleList target).erase e)
        some { s with sessions :=
          s.sessions ++ [{ target := target, conn := none, timeout := 0, pc := .sending e }] }
  | none =>
      some { s with sessions :=
        s.sessions ++ [{ target := target, conn := none, timeout := 0, pc := .launching }] }

/-- A new entry of `launch_conn`. -/
def launchedEntry (σ target : Nat) : ConnEntry :=
  { state := .connecting, error := 0, ref := 1, session := σ, target := target, mutex := false
    node := none, released := false }

inductive LaunchResult where
  | failed
  | notAdded
  | added
  deriving DecidableEq, Repr

/-- The loop of `request` around `launch_conn` and `mpoller_add`. -/
def launch (σ : Nat) (outcome : LaunchResult) (s : State) : Option State :=
  match s.sessions[σ]? with
  | some session =>
      if session.pc = .launching then
        match outcome with
        | .failed => some (s.setSession σ { session with pc := .refused })
        | .notAdded =>
            let e := s.launched
            let s := s.setEntry e { launchedEntry σ session.target with released := true }
            let s := { s with launched := e + 1 }
            some ((s.setSession σ { session with pc := .refused }).record (.releaseConn none e 1))
        | .added =>
            let e := s.launched
            let s := s.setEntry e { launchedEntry σ session.target with
              node := some { operation := .connect, phase := .none } }
            let s := { s with launched := e + 1 }
            some (s.setSession σ { session with conn := some e, pc := .accepted })
      else
        none
  | none => none

/-- The rest of `request_idle_conn`, with the mutex of the entry. A message of which a part is left is not
told from one that is sent. -/
def send (σ : Nat) (out : Outgoing) (s : State) : Option State :=
  match s.sessions[σ]? with
  | some session =>
      match session.pc with
      | .sending e =>
          let s := s.setEntry e { s.entries e with session := σ }
          let s := s.setSession σ { session with conn := some e, pc := .unlocking e }
          let ret := sendMessage out
          if ret = 0 then
            some (s.setEntry e { s.entries e with state := .receiving })
          else if ret < 0 then
            let s := s.setEntry e { s.entries e with error := out.errno }
            let s := s.mpollerDel e
            some (s.setEntry e { s.entries e with state := .error })
          else
            some s
      | _ => none
  | none => none

/-- The mutex of the entry is unlocked, and `request` returns 0. -/
def unlock (σ : Nat) (s : State) : Option State :=
  match s.sessions[σ]? with
  | some session =>
      match session.pc with
      | .unlocking e =>
          let s := s.setEntry e { s.entries e with mutex := false }
          some (s.setSession σ { session with pc := .accepted })
      | _ => none
  | none => none

/-- What the environment answers to a handler thread. -/
structure HandlerIo where
  out : Outgoing
  added : Bool
  errno : Int
  deriving DecidableEq, Repr

/-- `poller_queue_get`. -/
def take (h : Nat) (s : State) : Option State :=
  match s.handlers[h]?, s.queue with
  | some .waiting, result :: rest => some ({ s with queue := rest }.setHandler h (.took result))
  | _, _ => none

/-- The `state` that a close result gives to `handle`, with its error. -/
def closeReply (result : Result) : CsState × Int :=
  match result.state with
  | .finished => (.error, econnreset)
  | .error => (.error, result.error)
  | _ => (.stopped, result.error)

/-- `handle_connect_result`, up to the call of `mpoller_add`. -/
def handleConnect (h : Nat) (io : HandlerIo) (result : Result) (s : State) : State :=
  let e := result.entry
  let session := (s.entries e).session
  match result.state with
  | .finished =>
      let ret := sendMessage io.out
      if ret = 0 then
        (s.setEntry e { s.entries e with state := .receiving }).setHandler h (.adding e)
      else if ret > 0 then
        s.setHandler h .waiting
      else
        s.setHandler h (.releasing e { session := session, state := .error, error := io.out.errno } true)
  | .error =>
      s.setHandler h (.releasing e { session := session, state := .error, error := result.error } true)
  | .deleted | .stopped =>
      s.setHandler h (.releasing e { session := session, state := .stopped, error := result.error } true)
  | _ => s.setHandler h .waiting

/-- `mpoller_add` of `handle_connect_result`. -/
def handleAdd (h : Nat) (io : HandlerIo) (e : Nat) (s : State) : State :=
  if io.added = true then
    ((s.setEntry e { s.entries e with
      node := some { operation := .read, phase := .none } }).setHandler h .waiting).record (.addRead h e)
  else
    s.setHandler h (.releasing e
      { session := (s.entries e).session, state := .error, error := io.errno } true)

/-- The section of `handle_incoming_reply` for a complete reply. -/
def handleSuccess (h e σ : Nat) (s : State) : State :=
  let entry := s.entries e
  let next := HandlerPc.releasing e { session := σ, state := .success, error := 0 } false
  if entry.state = .success then
    if (s.sessions[σ]?.map fun session => session.timeout) ≠ some 0 then
      ((s.setEntry e { entry with ref := entry.ref + 1, state := .idle }).setIdleList entry.target
        (e :: s.idleList entry.target)).setHandler h next
    else
      (s.setEntry e { entry with ref := entry.ref + 1, state := .closing }).setHandler h next
  else
    s.setHandler h next

/-- The section of `handle_incoming_reply` for the end of a connection. The mutex of the target is unlocked
at its end, that of the entry is not. -/
def handleClose (h : Nat) (result : Result) (s : State) : Option State :=
  let e := result.entry
  let entry := s.entries e
  let reply := closeReply result
  if entry.mutex = true then
    none
  else
    let s := s.setEntry e { entry with mutex := true }
    some (match entry.state with
      | .idle =>
          (s.setIdleList entry.target ((s.idleList entry.target).erase e)).setHandler h
            (.unlocking e true none)
      | .error =>
          s.setHandler h (.unlocking e true
            (some { session := entry.session, state := .error, error := entry.error }))
      | .receiving =>
          s.setHandler h (.unlocking e true
            (some { session := entry.session, state := reply.1, error := reply.2 }))
      | .success =>
          (s.setEntry e { entry with mutex := true, state := .closing }).setHandler h
            (.unlocking e false none)
      | _ => s.setHandler h (.unlocking e true none))

/-- The next step of a handler thread that has taken a result. -/
def handlerStep (h : Nat) (io : HandlerIo) (s : State) : Option State :=
  match s.handlers[h]? with
  | some (.took result) =>
      if result.operation = .connect then some (s.handleConnect h io result)
      else match result.state with
        | .success =>
            some (s.setHandler h (.succeeding result.entry (s.entries result.entry).session))
        | .modified => some (s.setHandler h .waiting)
        | _ => s.handleClose h result
  | some (.adding e) => some (s.handleAdd h io e)
  | some (.succeeding e σ) => some (s.handleSuccess h e σ)
  | some (.unlocking e alive reply) =>
      let s := s.setEntry e { s.entries e with mutex := false }
      some (s.setHandler h (match alive, reply with
        | false, _ => .waiting
        | true, some reply => .releasing e reply false
        | true, none => .dropping e))
  | some (.releasing e reply direct) =>
      some ((s.setHandler h (.handling e reply direct)).record
        (.release h (s.entries e).target reply.session))
  | some (.handling e reply direct) =>
      some ((s.setHandler h (if direct then .freeing e true else .dropping e)).record
        (.handle h reply.session reply.state reply.error))
  | some (.dropping e) =>
      let entry := { s.entries e with ref := (s.entries e).ref - 1 }
      some ((s.setEntry e entry).setHandler h (if entry.ref = 0 then .freeing e false else .waiting))
  | some (.freeing e _) =>
      some (((s.setEntry e { s.entries e with released := true }).setHandler h .waiting).record
        (.releaseConn (some h) e (s.entries e).ref))
  | _ => none

end State

/-- A step of a requesting thread, of a poller thread or of a handler thread. -/
inductive Input where
  | request (target : Nat)
  | launch (σ : Nat) (outcome : State.LaunchResult)
  | send (σ : Nat) (out : Outgoing)
  | unlock (σ : Nat)
  | connectDone (e : Nat) (error : Int)
  | readDone (e : Nat) (error : Int)
  | readReady (e : Nat)
  | createMessage (e : Nat) (created : Bool) (errno : Int)
  | append (e : Nat) (timeout : Int)
  | deliver
  | take (h : Nat)
  | handler (h : Nat) (io : State.HandlerIo)
  deriving DecidableEq, Repr

def State.step (s : State) : Input → Option State
  | .request target => s.request target
  | .launch σ outcome => s.launch σ outcome
  | .send σ out => s.send σ out
  | .unlock σ => s.unlock σ
  | .connectDone e error => s.connectDone e error
  | .readDone e error => s.readDone e error
  | .readReady e => s.readReady e
  | .createMessage e created errno => s.createMessage e created errno
  | .append e timeout => s.append e timeout
  | .deliver => s.deliver
  | .take h => s.take h
  | .handler h io => s.handlerStep h io

def blankEntry : ConnEntry :=
  { state := .connecting, error := 0, ref := 0, session := 0, target := 0, mutex := false, node := none
    released := false }

/-- The communicator after `init`, with its handler threads in `poller_queue_get`. -/
def initialState (handlerThreads : Nat) : State :=
  { entries := fun _ => blankEntry, launched := 0, sessions := [], idleList := fun _ => [], pipe := []
    queue := [], handlers := List.replicate handlerThreads .waiting, log := [] }

/-- The states of the runs whose steps are all allowed. -/
inductive Reached (allowed : State → Input → Prop) (handlerThreads : Nat) : State → Prop
  | init : Reached allowed handlerThreads (initialState handlerThreads)
  | step {s s' : State} (input : Input) : Reached allowed handlerThreads s → allowed s input →
      s.step input = some s' → Reached allowed handlerThreads s'

end WorkflowModel.Kernel.Communicator
