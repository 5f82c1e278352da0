import WorkflowModel.CString
import Mathlib.Logic.Function.Basic
import Mathlib.Algebra.BigOperators.Group.List.Basic

/-!
# Upstreams

An `Upstream` is a set of servers, some of them in groups, from which `get` chooses one. It counts the
live members of each group, keeps broken servers in the breaker list of their group until their time is
over, and keeps the weight that is available for a second choice.

An address is known by its number, in the order of `add`. It outlives its removal: a task may still
report on it. A group is known by its `group_id`, and `groupIds` are the keys of the tree of groups in
order. Weights are summed without overflow.
-/

namespace WorkflowModel.Manager

open WorkflowModel

def mttrSecond : Int := 30

inductive ServerType where
  | master
  | slave
  deriving DecidableEq, Repr

structure AddressParams where
  maxFails : Nat
  weight : Nat
  serverType : ServerType
  groupId : Int
  deriving DecidableEq, Repr

/-- `inList` says that `list.next` is not NULL. -/
structure UpstreamAddress where
  address : Bytes
  params : AddressParams
  group : Option Int
  inList : Bool
  brokenTimeout : Int
  failCount : Nat
  consistentHash : List Nat

structure UpstreamGroup where
  masters : List Nat
  slaves : List Nat
  breakerList : List Nat
  nbreak : Int
  nalive : Int
  weight : Int

def emptyGroup : UpstreamGroup :=
  { masters := [], slaves := [], breakerList := [], nbreak := 0, nalive := 0, weight := 0 }

structure Upstream where
  totalWeight : Int
  availableWeight : Int
  masters : List Nat
  serverMap : Bytes → List Nat
  groupIds : List Int
  group : Int → UpstreamGroup
  count : Nat
  addresses : Nat → UpstreamAddress

def UpstreamAddress.alive (ua : UpstreamAddress) : Bool := ua.failCount < ua.params.maxFails

/-- The constructor of `UpstreamAddress`. The hashes of the virtual nodes come from `std::hash`. -/
def newAddress (address : Bytes) (params : AddressParams) (consistentHash : List Nat) :
    UpstreamAddress :=
  { address := address
    params := {
      maxFails := if params.maxFails = 0 then 1 else params.maxFails
      weight := if params.weight = 0 then 1 else params.weight
      serverType := params.serverType
      groupId := if params.groupId < 0 then -1 else params.groupId }
    group := none
    inList := false
    brokenTimeout := 0
    failCount := 0
    consistentHash := consistentHash }

/-- The constructor of `Upstream`, which makes the default group. -/
def emptyUpstream : Upstream where
  totalWeight := 0
  availableWeight := 0
  masters := []
  serverMap := fun _ => []
  groupIds := [-1]
  group := fun _ => emptyGroup
  count := 0
  addresses := fun _ => newAddress [] ⟨1, 1, .master, -1⟩ []

namespace Upstream

def setAddress (i : Nat) (ua : UpstreamAddress) (s : Upstream) : Upstream :=
  { s with addresses := Function.update s.addresses i ua }

def setGroup (id : Int) (group : UpstreamGroup) (s : Upstream) : Upstream :=
  { s with group := Function.update s.group id group }

def loseOneServer (id : Int) (i : Nat) (s : Upstream) : Upstream :=
  let group := s.group id
  let ua := s.addresses i
  let s := s.setGroup id { group with nalive := group.nalive - 1 }
  let s :=
    if group.nalive - 1 = 0 ∧ 0 ≤ ua.params.groupId then
      { s with availableWeight := s.availableWeight - group.weight }
    else
      s
  if ua.params.groupId < 0 ∧ ua.params.serverType = .master then
    { s with availableWeight := s.availableWeight - ua.params.weight }
  else
    s

def gainOneServer (id : Int) (i : Nat) (s : Upstream) : Upstream :=
  let group := s.group id
  let ua := s.addresses i
  let s := s.setGroup id { group with nalive := group.nalive + 1 }
  let s :=
    if group.nalive = 0 ∧ 0 ≤ ua.params.groupId then
      { s with availableWeight := s.availableWeight + group.weight }
    else
      s
  if ua.params.groupId < 0 ∧ ua.params.serverType = .master then
    { s with availableWeight := s.availableWeight + ua.params.weight }
  else
    s

/-- The group of a new server, made if the tree does not have it yet. -/
def ensureGroup (id : Int) (s : Upstream) : Upstream :=
  if id ∈ s.groupIds then
    s
  else
    { s with
      groupIds := s.groupIds.filter (· < id) ++ id :: s.groupIds.filter (id < ·)
      group := Function.update s.group id emptyGroup }

/-- The part of `add` under the lock of the group. The server is gained before its weight is added to
the group. -/
def joinGroup (id : Int) (i : Nat) (s : Upstream) : Upstream :=
  let s := gainOneServer id i s
  let ua := s.addresses i
  let s := s.setAddress i { ua with group := some id }
  let group := s.group id
  if ua.params.serverType = .master then
    s.setGroup id { group with
      weight := group.weight + ua.params.weight
      masters := group.masters ++ [i] }
  else
    s.setGroup id { group with slaves := group.slaves ++ [i] }

/-- `add`, for a server that has just been constructed. -/
def add (address : Bytes) (params : AddressParams) (consistentHash : List Nat) (s : Upstream) :
    Upstream :=
  let i := s.count
  let ua := newAddress address params consistentHash
  let s := { s with
    count := i + 1
    addresses := Function.update s.addresses i ua
    serverMap := Function.update s.serverMap address (s.serverMap address ++ [i]) }
  let s := ensureGroup ua.params.groupId s
  let s :=
    if ua.params.serverType = .master then
      { s with totalWeight := s.totalWeight + ua.params.weight, masters := s.masters ++ [i] }
    else
      s
  joinGroup ua.params.groupId i s

/-- One round of the loop of `del`. A server in the map has a group. -/
def leaveGroup (i : Nat) (s : Upstream) : Upstream :=
  let ua := s.addresses i
  match ua.group with
  | none => s
  | some id =>
      let s :=
        if ua.params.serverType = .master then
          { s with totalWeight := s.totalWeight - ua.params.weight }
        else
          s
      let s := s.setAddress i { ua with group := none }
      let s := if ua.alive then loseOneServer id i s else s
      let group := s.group id
      if ua.params.serverType = .master then
        s.setGroup id { group with
          weight := group.weight - ua.params.weight
          masters := group.masters.erase i }
      else
        s.setGroup id { group with slaves := group.slaves.erase i }

/-- `del`, with the number it returns. -/
def del (address : Bytes) (s : Upstream) : Nat × Upstream :=
  let left := (s.serverMap address).foldl (fun s i => leaveGroup i s) s
  let masters := s.masters.filter fun i => (s.addresses i).address ≠ address
  (s.masters.length - masters.length,
    { left with serverMap := Function.update s.serverMap address [], masters := masters })

/-- A server breaks: it goes to the breaker list of its group. -/
def breakServer (id : Int) (i : Nat) (now : Int) (s : Upstream) : Upstream :=
  let ua := s.addresses i
  let s := s.setAddress i { ua with inList := true, brokenTimeout := now + mttrSecond }
  let group := s.group id
  let s := s.setGroup id { group with
    breakerList := group.breakerList ++ [i]
    nbreak := group.nbreak + 1 }
  loseOneServer id i s

/-- One round of the loop of `disable_server`. -/
def disableOne (now : Int) (i : Nat) (s : Upstream) : Upstream :=
  let ua := s.addresses i
  let s := s.setAddress i { ua with failCount := ua.params.maxFails }
  match ua.group with
  | some id => if ua.inList then s else breakServer id i now s
  | none => s

def disableServer (address : Bytes) (now : Int) (s : Upstream) : Upstream :=
  (s.serverMap address).foldl (fun s i => disableOne now i s) s

/-- `notify_available`. It takes the server out of the breaker list but leaves `nbreak` alone. -/
def notifyAvailable (i : Nat) (s : Upstream) : Upstream :=
  let ua := s.addresses i
  match ua.group with
  | some id =>
      let s :=
        if ua.inList then
          let s := if ua.alive then s else gainOneServer id i s
          let group := s.group id
          s.setGroup id { group with breakerList := group.breakerList.filter (· ≠ i) }
        else
          s
      s.setAddress i { ua with inList := false, failCount := 0 }
  | none => s.setAddress i { ua with failCount := 0 }

def enableServer (address : Bytes) (s : Upstream) : Upstream :=
  (s.serverMap address).foldl (fun s i => notifyAvailable i s) s

/-- `fail_count` is a 32-bit counter. -/
def failOnce (ua : UpstreamAddress) : UpstreamAddress :=
  { ua with failCount := (ua.failCount + 1) % 2 ^ 32 }

def notifyUnavailable (i : Nat) (now : Int) (s : Upstream) : Upstream :=
  let ua := failOnce (s.addresses i)
  let s := s.setAddress i ua
  match ua.group with
  | some id =>
      if ua.failCount = ua.params.maxFails ∧ ua.inList = false then breakServer id i now s else s
  | none => s

/-- One round of the loop of `check_one_breaker`. -/
def mendOne (id : Int) (now : Int) (i : Nat) (s : Upstream) : Upstream :=
  let ua := s.addresses i
  if ua.brokenTimeout ≤ now then
    let s :=
      if ua.alive then
        s
      else if ua.group = some id then
        gainOneServer id i s
      else
        s
    let s := s.setAddress i { ua with
      failCount := if ua.alive then ua.failCount else ua.params.maxFails - 1
      inList := false }
    let group := s.group id
    s.setGroup id { group with
      breakerList := group.breakerList.filter (· ≠ i)
      nbreak := group.nbreak - 1 }
  else
    s

def checkOneBreaker (id : Int) (now : Int) (s : Upstream) : Upstream :=
  if (s.group id).nbreak = 0 then
    s
  else
    (s.group id).breakerList.foldl (fun s i => mendOne id now i s) s

def checkAllBreaker (now : Int) (s : Upstream) : Upstream :=
  s.groupIds.foldl (fun s id => checkOneBreaker id now s) s

/-- `std::shuffle` with some generator. -/
structure Shuffle where
  run : List Nat → List Nat
  perm : ∀ l, (run l).Perm l

def getOne (shuffle : Shuffle) (id : Int) (s : Upstream) : Option Nat × Upstream :=
  if (s.group id).nalive = 0 then
    (none, s)
  else
    let masters := shuffle.run (s.group id).masters
    let s := s.setGroup id { s.group id with masters := masters }
    match masters.find? fun i => (s.addresses i).alive with
    | some i => (some i, s)
    | none =>
        let slaves := shuffle.run (s.group id).slaves
        let s := s.setGroup id { s.group id with slaves := slaves }
        (slaves.find? fun i => (s.addresses i).alive, s)

def getOneSlave (shuffle : Shuffle) (id : Int) (s : Upstream) : Option Nat × Upstream :=
  if (s.group id).nalive = 0 then
    (none, s)
  else
    let slaves := shuffle.run (s.group id).slaves
    let s := s.setGroup id { s.group id with slaves := slaves }
    (slaves.find? fun i => (s.addresses i).alive, s)

def checkGetStrong (shuffle : Shuffle) (i : Nat) (s : Upstream) : Option Nat × Upstream :=
  if (s.addresses i).alive then
    (some i, s)
  else if (s.addresses i).params.groupId < 0 then
    (none, s)
  else
    getOne shuffle (s.addresses i).params.groupId s

def checkGetWeak (shuffle : Shuffle) (choice : Option Nat) (s : Upstream) : Option Nat × Upstream :=
  match choice with
  | none => (none, s)
  | some i =>
      if (s.addresses i).alive = false ∧ 0 ≤ (s.addresses i).params.groupId then
        let result := getOne shuffle (s.addresses i).params.groupId s
        (result.1.or (some i), result.2)
      else
        (some i, s)

def isAliveOrGroupAlive (s : Upstream) (i : Nat) : Bool :=
  let ua := s.addresses i
  (decide (0 ≤ ua.params.groupId) && decide (0 < (s.group ua.params.groupId).nalive)) ||
    (decide (ua.params.groupId < 0) && ua.alive)

/-- The first address at which the running sum of the weights exceeds `x`. -/
def pickAbove (s : Upstream) (x : Int) : Int → List Nat → Option Nat
  | _, [] => none
  | sum, i :: rest =>
      let sum := sum + (s.addresses i).params.weight
      if x < sum then some i else pickAbove s x sum rest

/-- `weighted_random_try_another` up to its call of `__check_get_weak`. -/
def weightedRandomTryAnother (rand : Nat) (s : Upstream) : Option Nat :=
  if s.availableWeight = 0 then
    none
  else
    let eligible := s.masters.filter s.isAliveOrGroupAlive
    (pickAbove s (Int.tmod rand s.availableWeight) 0 eligible).or eligible.getLast?

def circularDistance (hash node : Nat) : Nat :=
  min ((hash + (2 ^ 32 - node)) % 2 ^ 32) ((node + (2 ^ 32 - hash)) % 2 ^ 32)

/-- `consistent_hash_select` up to its call of `__check_get_weak`: the pair is `min_dis` and `ua`. -/
def consistentHashSelect (hash : Nat) (s : Upstream) : Option Nat :=
  ((s.masters.filter s.isAliveOrGroupAlive).foldl (fun best i =>
    (s.addresses i).consistentHash.foldl (fun best node =>
      if circularDistance hash node < best.1 then (circularDistance hash node, some i) else best)
      best) (2 ^ 32 - 1, none)).2

structure Mode where
  isConsistent : Bool
  hasSelectCallback : Bool
  tryAnother : Bool

/-- What a call of `get` draws: the results of the callbacks for the URI, two values of `rand`, the time
and a shuffle. -/
structure Draws where
  hash : Nat
  select : Nat
  first : Nat
  second : Nat
  now : Int
  shuffle : Shuffle

/-- The first choice among at least one master, before anything is checked. -/
def firstChoice (mode : Mode) (draws : Draws) (s : Upstream) (head : Nat) (rest : List Nat) : Nat :=
  if rest = [] then
    head
  else if mode.hasSelectCallback then
    ((head :: rest)[draws.select % (rest.length + 1)]?).getD head
  else
    let x : Int := if 0 < s.totalWeight then Int.tmod draws.first s.totalWeight else 0
    (pickAbove s x 0 (head :: rest)).getD ((head :: rest).getLast (by simp))

/-- The choices that follow a broken first choice. -/
def secondChoice (mode : Mode) (draws : Draws) (i : Nat) (s : Upstream) : Option Nat × Upstream :=
  let s := checkAllBreaker draws.now s
  let strong := checkGetStrong draws.shuffle i s
  if strong.1 = none ∧ mode.tryAnother then
    if mode.hasSelectCallback then
      checkGetWeak draws.shuffle (consistentHashSelect draws.hash strong.2) strong.2
    else
      checkGetWeak draws.shuffle (weightedRandomTryAnother draws.second strong.2) strong.2
  else
    strong

/-- A slave of the default group stands in when nothing else was found. -/
def orSlave (draws : Draws) (result : Option Nat × Upstream) : Option Nat × Upstream :=
  match result.1 with
  | some i => (some i, result.2)
  | none => getOneSlave draws.shuffle (-1) result.2

def get (mode : Mode) (draws : Draws) (s : Upstream) : Option Nat × Upstream :=
  if mode.isConsistent then
    let s := checkAllBreaker draws.now s
    orSlave draws (checkGetWeak draws.shuffle (consistentHashSelect draws.hash s) s)
  else
    match s.masters with
    | [] => (none, s)
    | head :: rest =>
        let i := firstChoice mode draws s head rest
        if (s.addresses i).alive then (some i, s)
        else orSlave draws (secondChoice mode draws i s)

inductive Op where
  | add (address : Bytes) (params : AddressParams) (consistentHash : List Nat)
  | del (address : Bytes)
  | disableServer (address : Bytes) (now : Int)
  | enableServer (address : Bytes)
  | notifyAvailable (i : Nat)
  | notifyUnavailable (i : Nat) (now : Int)
  | checkOneBreaker (id : Int) (now : Int)
  | checkAllBreaker (now : Int)

/-- One operation. A report comes with an address that exists, a check with a group that exists. -/
def step (s : Upstream) : Op → Upstream
  | .add address params consistentHash => s.add address params consistentHash
  | .del address => (s.del address).2
  | .disableServer address now => s.disableServer address now
  | .enableServer address => s.enableServer address
  | .notifyAvailable i => if i < s.count then s.notifyAvailable i else s
  | .notifyUnavailable i now => if i < s.count then s.notifyUnavailable i now else s
  | .checkOneBreaker id now => if id ∈ s.groupIds then s.checkOneBreaker id now else s
  | .checkAllBreaker now => s.checkAllBreaker now

def run (s : Upstream) (ops : List Op) : Upstream := ops.foldl step s

end Upstream

end WorkflowModel.Manager
