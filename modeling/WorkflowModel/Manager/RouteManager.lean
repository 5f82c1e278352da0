import WorkflowModel.Manager.Router
import WorkflowModel.Util.StringUtil
import WorkflowModel.Lib.SearchTree

/-!
# The route manager

`RouteManager::get` gives the router for a transport type, a list of addresses and the `other_info`. It looks
for one under a hash of the three in a tree, and makes one when there is none. The addresses are sorted before
they are hashed.

An address is its `ai_addrlen` bytes, and a list of addresses is empty where the source has a null pointer.
The hash and the rebalancing of the tree are given. A router has the number under which it was made; the lock
is held for the whole call, but for the hash. The timeouts of the endpoint only reach `CommTarget::init`,
whose outcome is part of a request.
-/

namespace WorkflowModel.Manager.RouteManager

open WorkflowModel Kernel SearchTree

inductive TransportType where
  | tcp
  | udp
  | sctp
  | tcpSsl
  | sctpSsl
  deriving DecidableEq, Repr

/-- The value of the enumerator. -/
def TransportType.value : TransportType → Nat
  | .tcp => 0
  | .udp => 1
  | .sctp => 2
  | .tcpSsl => 3
  | .sctpSsl => 4

/-- The sign of `memcmp` for two texts of one length. -/
def memcmp : Bytes → Bytes → Int
  | c :: x, d :: y => if c = d then memcmp x y else if c < d then -1 else 1
  | _, _ => 0

def addrCmp (x y : Bytes) : Int :=
  if x.length = y.length then memcmp x y else if x.length < y.length then -1 else 1

def addrLess (x y : Bytes) : Bool := addrCmp x y < 0

/-- `std::sort` with `__addr_less`. -/
def sortAddr (addrinfo : List Bytes) : List Bytes := addrinfo.mergeSort fun x y => !addrLess y x

/-- The string that `__generate_key` hashes. -/
def keyString (type : TransportType) (addrinfo : List Bytes) (otherInfo : Bytes) : Bytes :=
  bytesOf "TT" ++ decimal type.value ++ [charLf]
    ++ (if otherInfo = [] then [] else otherInfo ++ [charLf])
    ++ (sortAddr addrinfo).flatMap fun addr => addr ++ [charLf]

/-- `MD5Util::md5_integer_16` and `rb_insert_color`. -/
structure Library where
  md5Integer16 : Bytes → Nat
  rbInsertColor : BinTree Nat → BinTree Nat

def generateKey (lib : Library) (type : TransportType) (addrinfo : List Bytes) (otherInfo : Bytes) : Nat :=
  lib.md5Integer16 (keyString type addrinfo otherInfo)

inductive RequestObject where
  | target (t : Nat)
  | group (g : Nat)
  deriving DecidableEq, Repr

/-- A router with the fields that the manager reads. -/
structure Entry where
  router : Route.Router
  requestObject : RequestObject
  md5_16 : Nat
  deriving DecidableEq, Repr

/-- The arguments of a call of `get`, with the targets that can be created and what `check_breaker` sees. -/
structure Request where
  type : TransportType
  addrinfo : List Bytes
  otherInfo : Bytes
  maxConnections : Nat
  created : Nat → Bool
  now : Int
  nbreak : Int
  pick : Nat → Nat

/-- `RouteResult`, with the number of the router as the cookie. -/
structure RouteResult where
  cookie : Option Nat
  requestObject : Option RequestObject
  deriving DecidableEq, Repr

def RouteResult.clear : RouteResult := { cookie := none, requestObject := none }

def maxconnText : Bytes := bytesOf "?maxconn="

def Request.paramsMaxConnections (q : Request) : Nat :=
  if Util.StringUtil.startWith q.otherInfo maxconnText then
    let maxconn := atoi (cString (q.otherInfo.drop 9))
    if maxconn ≤ 0 then 1 else maxconn.toNat
  else q.maxConnections

/-- The manager with its routers and the scheduler of their groups. -/
structure State where
  cache : BinTree Nat
  routers : Nat → Entry
  next : Nat
  nextTarget : Nat
  comm : CommScheduler.State

def State.md5Of (m : State) (id : Nat) : Nat := (m.routers id).md5_16

def State.modifyRouter (id : Nat) (f : Route.World → Route.World) (m : State) : State :=
  let w := f { router := (m.routers id).router, comm := m.comm }
  { m with routers := Function.update m.routers id { m.routers id with router := w.router }, comm := w.comm }

/-- `Router::init`, with the object it chooses for the requests. -/
def initRouter (q : Request) (m : State) : Option (Route.World × RequestObject) := do
  let w ← Route.init q.paramsMaxConnections m.next m.nextTarget ((List.range q.addrinfo.length).map q.created) m.comm
  return (w, if q.addrinfo.length = 1 then .target m.nextTarget else .group m.next)

/-- The new router is linked where the search has ended. -/
def State.link (lib : Library) (md5 : Nat) (w : Route.World) (object : RequestObject) (q : Request)
    (m : State) : State :=
  let routers := Function.update m.routers m.next { router := w.router, requestObject := object, md5_16 := md5 }
  { cache := lib.rbInsertColor (m.cache.insertLeaf (fun id => decide (md5 < (routers id).md5_16)) m.next)
    routers := routers
    next := m.next + 1
    nextTarget := m.nextTarget + q.addrinfo.length
    comm := w.comm }

def get (lib : Library) (q : Request) (m : State) : State × Int × RouteResult :=
  if q.addrinfo = [] then (m, -1, .clear)
  else
    let md5 := generateKey lib q.type q.addrinfo q.otherInfo
    match m.cache.findKey m.md5Of md5 with
    | some id =>
        (m.modifyRouter id (Route.checkBreaker q.now q.nbreak q.pick), 0,
          { cookie := some id, requestObject := some (m.routers id).requestObject })
    | none =>
        match initRouter q m with
        | some (w, object) =>
            (m.link lib md5 w object q, 0, { cookie := some m.next, requestObject := some object })
        | none => (m, -1, .clear)

/-- The calls of `get`, and what happens to a router between them. -/
inductive Call where
  | get (q : Request)
  | router (cookie : Nat) (op : Route.Op)

def State.step (lib : Library) (m : State) : Call → State
  | .get q => (RouteManager.get lib q m).1
  | .router cookie op => m.modifyRouter cookie fun w => w.step op

def State.run (lib : Library) (calls : List Call) (m : State) : State := calls.foldl (State.step lib) m

def noRouter : Entry := { router := .new 0, requestObject := .group 0, md5_16 := 0 }

def State.init (comm : CommScheduler.State) : State :=
  { cache := .leaf, routers := fun _ => noRouter, next := 0, nextTarget := 0, comm := comm }

end WorkflowModel.Manager.RouteManager
