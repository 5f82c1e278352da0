import WorkflowModel.CString
import WorkflowModel.Util.LRUCache

/-!
# The DNS cache

`DNSCache` keeps the addresses of a host and port in an `LRUCache`, with two deadlines. A `get_ttl` or
`get_confident` behind its deadline returns nothing, so that the caller resolves the name anew, and puts the
deadline off, so that the others go on with the old addresses.

The deadlines are the part of a value that changes in place, so they are kept beside the pool, under the
number of the handle. The test of a deadline and its repetition under the lock are one step. A list of
addresses is empty where the source has a null pointer.
-/

namespace WorkflowModel.Manager

open WorkflowModel Util

/-- `std::pair<std::string, unsigned short>`. -/
abbrev HostPort := Bytes × Nat

/-- The deadlines of a `DNSCacheValue`. -/
structure DNSTimes where
  confidentTime : Int
  expireTime : Int
  deriving DecidableEq, Repr

inductive GetType where
  | ttl
  | confident
  deriving DecidableEq, Repr

def confidentInc : Int := 10

def ttlInc : Int := 10

def int64Max : Int := 2 ^ 63 - 1

def unsignedMax : Nat := 2 ^ 32 - 1

def DNSTimes.deadline (x : DNSTimes) : GetType → Int
  | .ttl => x.expireTime
  | .confident => x.confidentTime

def DNSTimes.putOff (x : DNSTimes) : GetType → DNSTimes
  | .ttl => { x with expireTime := x.expireTime + ttlInc }
  | .confident => { x with confidentTime := x.confidentTime + confidentInc }

/-- By how much `putOff` moves the deadline. -/
def GetType.inc : GetType → Int
  | .ttl => ttlInc
  | .confident => confidentInc

structure DNSCache where
  pool : LRUCache HostPort (List Bytes)
  times : Nat → DNSTimes

namespace DNSCache

def empty : DNSCache := { pool := .empty, times := fun _ => { confidentTime := 0, expireTime := 0 } }

def get (key : HostPort) (d : DNSCache) : Option (DNSCache × Option Nat) := do
  let (pool, handle) ← d.pool.get key
  return ({ d with pool := pool }, handle)

def getInner (key : HostPort) (type : GetType) (now : Int) (d : DNSCache) : Option (DNSCache × Option Nat) := do
  let (pool, handle) ← d.pool.get key
  match handle with
  | some e =>
      if now > (d.times e).deadline type then
        let times := Function.update d.times e ((d.times e).putOff type)
        let pool ← pool.release (some e)
        return ({ pool := pool, times := times }, none)
      else return ({ d with pool := pool }, some e)
  | none => return ({ d with pool := pool }, none)

/-- The deadlines that `put` gives a value. -/
def putTimes (ttlDefault ttlMin : Nat) (now : Int) : DNSTimes :=
  let ttlMin := if ttlMin > ttlDefault then ttlDefault else ttlMin
  { confidentTime := if ttlMin = unsignedMax then int64Max else now + ttlMin
    expireTime := if ttlDefault = unsignedMax then int64Max else now + ttlDefault }

def put (key : HostPort) (addrinfo : List Bytes) (ttlDefault ttlMin : Nat) (now : Int) (d : DNSCache) :
    Option (DNSCache × Nat) := do
  let (pool, e) ← d.pool.put key addrinfo
  return ({ pool := pool, times := Function.update d.times e (putTimes ttlDefault ttlMin now) }, e)

def del (key : HostPort) (d : DNSCache) : Option DNSCache := do
  let pool ← d.pool.del key
  return { d with pool := pool }

def release (handle : Option Nat) (d : DNSCache) : Option DNSCache := do
  let pool ← d.pool.release handle
  return { d with pool := pool }

inductive Call where
  | put (key : HostPort) (addrinfo : List Bytes) (ttlDefault ttlMin : Nat) (now : Int)
  | get (key : HostPort)
  | getInner (key : HostPort) (type : GetType) (now : Int)
  | del (key : HostPort)
  | release (handle : Option Nat)
  deriving DecidableEq, Repr

end DNSCache

/-- A cache and its callers; `held` has a handle once for each time it was returned and not released. -/
structure DNSUse where
  cache : DNSCache
  held : List Nat

namespace DNSUse

open DNSCache

def start : DNSUse := { cache := .empty, held := [] }

def Allowed (u : DNSUse) : Call → Prop
  | .release (some handle) => handle ∈ u.held
  | _ => True

/-- A call, with the handle it returns. -/
def step (u : DNSUse) : Call → Option (DNSUse × Option Nat)
  | .put key addrinfo ttlDefault ttlMin now => do
      let (d, e) ← u.cache.put key addrinfo ttlDefault ttlMin now
      return ({ cache := d, held := e :: u.held }, some e)
  | .get key => do
      let (d, handle) ← u.cache.get key
      return ({ cache := d, held := handle.toList ++ u.held }, handle)
  | .getInner key type now => do
      let (d, handle) ← u.cache.getInner key type now
      return ({ cache := d, held := handle.toList ++ u.held }, handle)
  | .del key => do
      let d ← u.cache.del key
      return ({ u with cache := d }, none)
  | .release handle => do
      let d ← u.cache.release handle
      return ({ cache := d, held := handle.elim u.held u.held.erase }, none)

/-- A call in the state that it finds, with what it returns. -/
structure Event where
  found : DNSUse
  call : Call
  result : Option Nat

/-- The calls that lead from one state to another. -/
inductive Trace : DNSUse → List Event → DNSUse → Prop where
  | nil (u : DNSUse) : Trace u [] u
  | cons {u v w : DNSUse} {call : Call} {result : Option Nat} {events : List Event} :
      u.Allowed call → u.step call = some (v, result) → Trace v events w →
        Trace u ({ found := u, call := call, result := result } :: events) w

instance (u : DNSUse) : (call : Call) → Decidable (u.Allowed call)
  | .release (some handle) => inferInstanceAs (Decidable (handle ∈ u.held))
  | .release none | .put .. | .get _ | .getInner .. | .del _ => inferInstanceAs (Decidable True)

/-- The calls one after the other, as far as they are allowed. -/
def exec (u : DNSUse) : List Call → Option (List Event × DNSUse)
  | [] => some ([], u)
  | call :: calls =>
      if u.Allowed call then do
        let (v, result) ← u.step call
        let (events, w) ← v.exec calls
        return ({ found := u, call := call, result := result } :: events, w)
      else none

end DNSUse

end WorkflowModel.Manager
