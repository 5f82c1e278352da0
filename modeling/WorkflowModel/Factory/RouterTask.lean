import WorkflowModel.Algorithm.DNSRoutine
import WorkflowModel.Client.Task
import WorkflowModel.Manager.DNSCache
import WorkflowModel.Manager.RouteManager

/-!
# The router task

`WFRouterTask` finds the route for a host. `dispatch` looks for its addresses in the DNS cache; a host that is
an address itself is resolved on the spot; for any other host a DNS task goes before the series, and
`dns_callback` goes on with what it has found. New addresses are put into the cache.

The DNS cache and the route manager are those of the process. `asked` is a ghost: the arguments of the calls of
`RouteManager::get`. A call fails if an assertion of the cache does, or the copy of a path.
-/

namespace WorkflowModel.Factory

open WorkflowModel Manager Manager.RouteManager Algorithm Client

structure EndpointParams where
  maxConnections : Nat
  connectTimeout : Int
  responseTimeout : Int
  sslConnectTimeout : Int
  deriving DecidableEq, Repr

structure RouterTask where
  type : TransportType
  host : Bytes
  port : Nat
  info : Bytes
  dnsCacheLevel : Int
  dnsTtlDefault : Nat
  dnsTtlMin : Nat
  endpointParams : EndpointParams
  firstAddrOnly : Bool
  insertDns : Bool
  state : TaskState
  error : Int
  routeResult : RouteManager.RouteResult
  deriving DecidableEq, Repr

/-- The arguments of `RouteManager::get`. -/
structure RouteArgs where
  type : TransportType
  addrinfo : List Bytes
  otherInfo : Bytes
  endpointParams : EndpointParams
  deriving DecidableEq, Repr

/-- What a call meets: the functions of the C library, `errno` after a call of `get` or of the resolver that
has failed, the clock, and what the route manager sees. -/
structure Surroundings where
  lib : RouteManager.Library
  inetPton6 : Bytes → Int
  inetPton4 : Bytes → Int
  getaddrinfo : Bytes → Bytes → Int × List Bytes
  errno : Int
  now : Int
  created : Nat → Bool
  nbreak : Int
  pick : Nat → Nat

def Surroundings.request (env : Surroundings) (args : RouteArgs) : Request :=
  { type := args.type, addrinfo := args.addrinfo, otherInfo := args.otherInfo,
    maxConnections := args.endpointParams.maxConnections, created := env.created, now := env.now, nbreak := env.nbreak,
    pick := env.pick }

/-- A router task with the managers of the process. -/
structure RouterWorld where
  task : RouterTask
  cache : DNSCache
  manager : RouteManager.State
  asked : List RouteArgs

def eaiSystem : Int := -11

def RouterTask.routeArgs (task : RouterTask) (addrinfo : List Bytes) : RouteArgs :=
  { type := task.type, addrinfo := addrinfo, otherInfo := task.info, endpointParams := task.endpointParams }

/-- What the task makes of a reply of `RouteManager::get`. -/
def RouterTask.routed (env : Surroundings) (reply : Int × RouteManager.RouteResult) (task : RouterTask) : RouterTask :=
  let task := { task with routeResult := reply.2 }
  if reply.1 < 0 then { task with state := .sysError, error := env.errno }
  else if reply.2.requestObject = none then { task with state := .sysError, error := errAgain }
  else { task with state := .success }

/-- The call of `RouteManager::get`, which the source has in `dispatch` and in `dns_callback_internal`. -/
def RouterWorld.askRoute (env : Surroundings) (addrinfo : List Bytes) (w : RouterWorld) : RouterWorld :=
  let args := w.task.routeArgs addrinfo
  let reply := RouteManager.get env.lib (env.request args) w.manager
  { w with task := w.task.routed env reply.2, manager := reply.1, asked := w.asked ++ [args] }

def dnsCallbackInternal (env : Surroundings) (out : DNSOutput) (ttlDefault ttlMin : Nat) (w : RouterWorld) :
    Option RouterWorld :=
  if out.error ≠ 0 then
    if out.error = eaiSystem then
      some { w with task := { w.task with state := .sysError, error := env.errno } }
    else some { w with task := { w.task with state := .dnsError, error := out.error } }
  else if out.addrinfo ≠ [] then do
    let (cache, handle) ← w.cache.put (w.task.host, w.task.port) out.addrinfo ttlDefault ttlMin env.now
    let w := RouterWorld.askRoute env out.addrinfo { w with cache := cache }
    let cache ← w.cache.release (some handle)
    return { w with cache := cache }
  else some { w with task := { w.task with state := .sysError, error := errInval } }

/-- `dns_callback`, of a DNS task with its state, its error and its output. -/
def dnsCallback (env : Surroundings) (state : TaskState) (error : Int) (out : DNSOutput) (w : RouterWorld) :
    Option RouterWorld :=
  if state = .success then dnsCallbackInternal env out w.task.dnsTtlDefault w.task.dnsTtlMin w
  else some { w with task := { w.task with state := state, error := error } }

/-- The handle that `dispatch` gets from the cache. -/
def RouterTask.lookup (env : Surroundings) (task : RouterTask) (cache : DNSCache) : Option (DNSCache × Option Nat) :=
  if task.dnsCacheLevel = 1 then cache.getInner (task.host, task.port) .confident env.now
  else if task.dnsCacheLevel = 2 then cache.getInner (task.host, task.port) .ttl env.now
  else if task.dnsCacheLevel = 3 then cache.get (task.host, task.port)
  else some (cache, none)

/-- The addresses of a cached handle that `dispatch` asks a route for. -/
def RouterTask.cachedAddrinfo (task : RouterTask) (addrinfo : List Bytes) : List Bytes :=
  if task.firstAddrOnly = true ∧ 2 ≤ addrinfo.length then addrinfo.take 1 else addrinfo

/-- The first part of `dispatch`: the cache. -/
def dispatchCached (env : Surroundings) (w : RouterWorld) : Option RouterWorld := do
  let (cache, handle) ← w.task.lookup env w.cache
  let w := { w with cache := cache }
  match handle with
  | none => return w
  | some e =>
      let h ← w.cache.pool.handles e
      let w :=
        if h.value ≠ [] then
          let w := w.askRoute env (w.task.cachedAddrinfo h.value)
          { w with task := { w.task with insertDns := false } }
        else w
      let cache ← w.cache.release (some e)
      return { w with cache := cache }

/-- The host is an address, or the path of a Unix socket. -/
def isAddress (env : Surroundings) (host : Bytes) : Bool :=
  let front := host.headD charNul
  let back := host.getLastD charNul
  if charColon ∈ host then env.inetPton6 (cString host) = 1
  else if isDigit back = true ∧ isDigit front = true then env.inetPton4 (cString host) = 1
  else front = 47

/-- The second part of `dispatch`: a host that needs no DNS. -/
def dispatchAddress (env : Surroundings) (w : RouterWorld) : Option RouterWorld :=
  if w.task.insertDns = true ∧ w.task.host ≠ [] ∧ isAddress env w.task.host = true then do
    let out ← DNSRoutine.run env.getaddrinfo { host := w.task.host, port := w.task.port }
    let w ← dnsCallbackInternal env out unsignedMax unsignedMax w
    return { w with task := { w.task with insertDns := false } }
  else some w

/-- `dispatch`, with whether it puts a DNS task before the series. -/
def dispatch (env : Surroundings) (w : RouterWorld) : Option (RouterWorld × Bool) := do
  let w ← dispatchCached env { w with task := { w.task with insertDns := true } }
  let w ← dispatchAddress env w
  return (w, w.task.insertDns)

end WorkflowModel.Factory
