import WorkflowModel.CString
import WorkflowModel.Kernel.Poller

/-!
# The timer of a reply

While a reply arrives in parts, the connection is given a new timeout with every part. Two limits meet in
it: a part may not take longer than the response timeout of the target, and the whole reply not longer than
the receive timeout of the session. The `timeout` of the session is what is left of the second limit to
check, and 0 once nothing is.
-/

namespace WorkflowModel.Kernel.Communicator

open WorkflowModel

/-- The fields `timeout` and `begin_time` of a session. -/
structure SessionTimer where
  timeout : Int
  beginTime : Timespec
  deriving DecidableEq, Repr

/-- What the target and the session allow, in milliseconds. A negative limit is none. -/
structure Limits where
  responseTimeout : Int
  receiveTimeout : Int
  deriving DecidableEq, Repr

/-- Conversion of an `int` to `unsigned int`. -/
def unsignedOfInt (value : Int) : Int := value % 2 ^ 32

namespace SessionTimer

/-- `first_timeout`, with the timeout it returns. -/
def firstTimeout (limits : Limits) (now : Timespec) (session : SessionTimer) : Int × SessionTimer :=
  if limits.responseTimeout < 0
      ∨ unsignedOfInt session.timeout ≤ unsignedOfInt limits.responseTimeout then
    (session.timeout, { timeout := 0, beginTime := { session.beginTime with nsec := 0 } })
  else
    (limits.responseTimeout, { session with beginTime := now })

def firstTimeoutRecv (limits : Limits) (now : Timespec) (session : SessionTimer) :
    Int × SessionTimer :=
  firstTimeout limits now { session with timeout := limits.receiveTimeout }

/-- The milliseconds since `begin_time`. The division truncates, and the result is stored in an `int`. -/
def timeUsed (now : Timespec) (session : SessionTimer) : Int :=
  intOfLong (1000 * (now.sec - session.beginTime.sec)
    + Int.tdiv (now.nsec - session.beginTime.nsec) 1000000)

def nextTimeout (limits : Limits) (now : Timespec) (session : SessionTimer) : Int × SessionTimer :=
  if 0 < session.timeout then
    let timeLeft := session.timeout - timeUsed now session
    if timeLeft ≤ limits.responseTimeout then
      (if timeLeft < 0 then 0 else timeLeft, { session with timeout := 0 })
    else
      (limits.responseTimeout, session)
  else
    (limits.responseTimeout, session)

/-- `append` for a part that does not complete the reply, with the timeout that it gives the connection. -/
def appendPart (limits : Limits) (now : Timespec) (session : SessionTimer) :
    Option Int × SessionTimer :=
  if session.timeout ≠ 0 then
    let result :=
      if session.beginTime.nsec = -1 then firstTimeoutRecv limits now session
      else nextTimeout limits now session
    (some result.1, result.2)
  else
    (none, session)

/-- The timeouts that the parts of a reply give the connection, each with the time of its part. -/
def armings (limits : Limits) (session : SessionTimer) : List Timespec → List (Timespec × Int)
  | [] => []
  | now :: rest =>
      let result := appendPart limits now session
      (result.1.toList.map fun timeout => (now, timeout)) ++ armings limits result.2 rest

def afterParts (limits : Limits) (session : SessionTimer) (times : List Timespec) : SessionTimer :=
  times.foldl (fun session now => (appendPart limits now session).2) session

/-- The end of `send_message_sync` on an idle connection. `first` is what the method `first_timeout` of the
session returns; if it is not 0, it is the limit for the first part. -/
def messageSent (limits : Limits) (first : Int) (now : Timespec) (session : SessionTimer) :
    Int × SessionTimer :=
  if first = 0 then
    firstTimeoutRecv limits now session
  else
    (first, { timeout := -1, beginTime := { session.beginTime with nsec := -1 } })

end SessionTimer

end WorkflowModel.Kernel.Communicator
