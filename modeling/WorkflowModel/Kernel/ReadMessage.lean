import WorkflowModel.CString
import WorkflowModel.Lib.Replay
import WorkflowModel.Kernel.Communicator

/-!
# Reading messages from a connection

The bytes of a connection on their way from `read` to the messages of the sessions: `__poller_handle_read` and
`__poller_append_message` of the poller, `create_message` and `append` of the communicator. A step is one call of
`read`, or one round of the loop over the bytes that it gave. Between the steps other threads write the next
request on the connection, and handle the replies. The messages are of any type, with `in->append` a parameter. The
timers of the session and the nodes of the poller have models of their own.
-/

namespace WorkflowModel.Kernel.ReadMessage

open WorkflowModel WorkflowModel.Kernel WorkflowModel.Kernel.Communicator

/-- What makes `__poller_handle_read` leave its loops for good. -/
inductive Ended where
  | closed
  | failed (errno : Int)
  | notCreated (errno : Int)
  | refused (errno : Int)
  deriving DecidableEq, Repr

/-- `node->state` and `node->error`. -/
def Ended.result : Ended → ResultState × Int
  | .closed => (.finished, 0)
  | .failed errno => (.error, errno)
  | .notCreated errno => (.error, errno)
  | .refused errno => (.error, errno)

/-- A connection. `sessions` has what `message_in` gives for every session whose request was written, and
`entry->session` is the last of them; `timeout` is its keep-alive timeout, once there is one. The bytes of a read
that are left are in `buffer`. `received` and `handed` are all that was read and handed over, a message with the
number of its session. -/
structure Conn (μ : Type) where
  state : ConnState
  sessions : List (Option μ)
  timeout : Int
  message : Option μ
  buffer : Bytes
  ended : Option Ended
  received : Bytes
  handed : List (Nat × μ)
  deriving DecidableEq, Repr

def connecting (μ : Type) : Conn μ where
  state := .connecting
  sessions := []
  timeout := -1
  message := none
  buffer := []
  ended := none
  received := []
  handed := []

/-- What else the steps depend on: `errno` where a call fails, and the keep-alive timeout of the session. -/
structure Io where
  allocated : Bool
  errno : Int
  timeout : Int
  deriving DecidableEq, Repr

inductive Input (μ : Type) where
  | send (messageIn : Option μ)
  | sendFailed
  | read (bytes : Bytes)
  | readEnd (errno : Int)
  | appendMessage (io : Io)
  | handle
  deriving Repr

section

variable {μ : Type} (messageAppend : Bytes → μ → Int × Nat × μ)

/-- `Communicator::create_message`. The message of the session, or `errno`. -/
def Conn.createMessage (io : Io) (c : Conn μ) : Option μ × Int :=
  if c.state ≠ .receiving then (none, ebadmsg)
  else (c.sessions.getLast?.join, io.errno)

def Conn.append (io : Io) (msg : μ) (c : Conn μ) : Int × Nat × μ × Conn μ :=
  let (ret, n, msg) := messageAppend c.buffer msg
  (ret, n, msg, if 0 < ret then { c with state := .success, timeout := io.timeout } else c)

/-- The second half of `__poller_append_message`, with a message. -/
def Conn.appendTo (io : Io) (msg : μ) (c : Conn μ) : Int × Nat × Conn μ :=
  let (ret, n, msg, c) := c.append messageAppend io msg
  if 0 < ret then
    (ret, n, { c with message := none, handed := c.handed ++ [(c.sessions.length - 1, msg)] })
  else
    (ret, n, { c with message := some msg })

/-- One round of the loop over the bytes of a read. `nleft` falls below zero when a message refuses bytes, and
when it uses more of them than there are. -/
def Conn.appendMessage (io : Io) (c : Conn μ) : Conn μ :=
  let round (msg : μ) : Conn μ :=
    let (ret, n, next) := c.appendTo messageAppend io msg
    if ret < 0 ∨ c.buffer.length < n then { next with buffer := [], ended := some (.refused io.errno) }
    else { next with buffer := c.buffer.drop n }
  match c.message with
  | some msg => round msg
  | none =>
      if io.allocated = true then
        match c.createMessage io with
        | (some msg, _) => round msg
        | (none, errno) => { c with buffer := [], ended := some (.notCreated errno) }
      else
        { c with buffer := [], ended := some (.notCreated io.errno) }

/-- The poller thread reads when nothing of the last read is left. A request is written on a new connection and on
an idle one. -/
def Conn.step (c : Conn μ) : Input μ → Option (Conn μ)
  | .send messageIn =>
      if c.state = .connecting ∨ c.state = .idle then
        some { c with state := .receiving, sessions := c.sessions ++ [messageIn] }
      else none
  | .sendFailed => if c.state = .idle then some { c with state := .error } else none
  | .read bytes =>
      if c.state ≠ .connecting ∧ c.ended = none ∧ c.buffer = [] ∧ bytes ≠ [] ∧ bytes.length ≤ pollerBufsize then
        some { c with buffer := bytes, received := c.received ++ bytes }
      else none
  | .readEnd errno =>
      if c.state ≠ .connecting ∧ c.ended = none ∧ c.buffer = [] then
        some { c with ended := some (if errno = 0 then .closed else .failed errno) }
      else none
  | .appendMessage io =>
      if c.ended = none ∧ c.buffer ≠ [] then some (c.appendMessage messageAppend io) else none
  | .handle =>
      if c.state = .success then some { c with state := if c.timeout ≠ 0 then .idle else .closing } else none

def Conn.run (c : Conn μ) (inputs : List (Input μ)) : Option (Conn μ) :=
  Replay.replay (Conn.step messageAppend) c inputs

end

end WorkflowModel.Kernel.ReadMessage
