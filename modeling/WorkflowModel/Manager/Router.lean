import WorkflowModel.Kernel.CommScheduler

/-!
# Routers

A `Router` has the targets of the addresses that a name was resolved to. With two or more of them, requests
go to the group of the targets. A target that fails is taken out of the group and gets a node in the breaker
list, from which it comes back to the group after a time.

The group and the targets are those of a scheduler. The methods take their lock after a look at `targets`
and `nbreak`; as `nbreak` may change until then, the value that was seen is part of a step. So are the times
and the waiting threads that `add` wakes. Memory is not exhausted, and the counters do not overflow.
-/

namespace WorkflowModel.Manager.Route

open WorkflowModel Kernel.CommScheduler

def mttrSecond : Int := 30

structure BreakerNode where
  target : Nat
  timeout : Int
  deriving DecidableEq, Repr

structure Router where
  group : Nat
  targets : List Nat
  breakerList : List BreakerNode
  nleft : Int
  nbreak : Int
  deriving DecidableEq, Repr

structure World where
  router : Router
  comm : Kernel.CommScheduler.State

/-- `group->add(target)`, and `nleft` if it did. -/
def World.add (t pick : Nat) (w : World) : World :=
  let result := w.comm.sched.add w.router.group t true pick
  { router := { w.router with
      nleft := if result.2 = .done then w.router.nleft + 1 else w.router.nleft }
    comm := { w.comm with sched := result.1 } }

/-- `notify_available`, which leaves the nodes of the target in the breaker list. -/
def notifyAvailable (t : Nat) (nbreak : Int) (pick : Nat) (w : World) : World :=
  if w.router.targets.length ≤ 1 ∨ nbreak = 0 then w else w.add t pick

def notifyUnavailable (t : Nat) (now : Int) (w : World) : World :=
  if w.router.targets.length ≤ 1 then
    w
  else if w.router.nleft ≤ 1 then
    w
  else
    let result := w.comm.sched.remove w.router.group t
    let w := { w with comm := { w.comm with sched := result.1 } }
    if result.2 = .done then
      { w with router := { w.router with
          breakerList := w.router.breakerList ++ [{ target := t, timeout := now + mttrSecond }]
          nbreak := w.router.nbreak + 1
          nleft := w.router.nleft - 1 } }
    else
      w

/-- `list_del(pos); delete node; nbreak--`, which leaves `nodes`. -/
def World.dropNode (nodes : List BreakerNode) (w : World) : World :=
  { w with router := { w.router with breakerList := nodes, nbreak := w.router.nbreak - 1 } }

/-- The loop of `check_breaker`. The nodes in `kept` are behind it. -/
def checkNodes (now : Int) (pick : Nat → Nat) :
    List BreakerNode → List BreakerNode → World → World
  | _, [], w => w
  | kept, node :: rest, w =>
      if node.timeout ≤ now then
        checkNodes now pick kept rest
          ((w.add node.target (pick node.target)).dropNode (kept ++ rest))
      else
        checkNodes now pick (kept ++ [node]) rest w

def checkBreaker (now nbreak : Int) (pick : Nat → Nat) (w : World) : World :=
  if w.router.targets.length ≤ 1 ∨ nbreak = 0 then w
  else checkNodes now pick [] w.router.breakerList w

/-- `create_target`; `created` says whether `CommTarget::init` has been successful, for a transport type that
is known. -/
def createTarget (maxConnections t : Nat) (created : Bool) (w : World) : Option World :=
  if created then
    match SchedTarget.init maxConnections with
    | .ok target => some { w with comm := { w.comm with sched := w.comm.sched.setTarget t target } }
    | .error _ => none
  else
    none

/-- `add_group_targets`. The new targets are numbered from `t` on. -/
def addGroupTargets (maxConnections : Nat) : List Bool → Nat → World → Option World
  | [], _, w => some w
  | created :: rest, t, w => do
      let w ← createTarget maxConnections t created w
      let result := w.comm.sched.add w.router.group t true 0
      if result.2 = .done then
        addGroupTargets maxConnections rest (t + 1)
          { router := { w.router with
              targets := w.router.targets ++ [t]
              nleft := w.router.nleft + 1 }
            comm := { w.comm with sched := result.1 } }
      else
        none

def Router.new (group : Nat) : Router :=
  { group := group, targets := [], breakerList := [], nleft := 0, nbreak := 0 }

/-- `Router::init` of a new router. Its group has the number `group`, its targets are numbered from `first`
on, and `addresses` says which of them can be created. -/
def init (maxConnections group first : Nat) (addresses : List Bool)
    (comm : Kernel.CommScheduler.State) : Option World :=
  match addresses with
  | [] => none
  | [created] => do
      let w ← createTarget maxConnections first created { router := .new group, comm := comm }
      return { w with router := { w.router with targets := [first] } }
  | addresses =>
      addGroupTargets maxConnections addresses first
        { router := .new group
          comm := { comm with sched := comm.sched.setGroup group SchedGroup.init } }

/-- The calls of the route manager and of the tasks, and the connections that requests get from the group and
give back. -/
inductive Op where
  | notifyUnavailable (t : Nat) (now : Int)
  | notifyAvailable (t : Nat) (nbreak : Int) (pick : Nat)
  | checkBreaker (now nbreak : Int) (pick : Nat → Nat)
  | acquire (waitTimeout : Int)
  | resume (i : Nat)
  | expire (i : Nat)
  | release (t pick : Nat)

def World.schedule (op : Kernel.CommScheduler.Op) (w : World) : World :=
  { w with comm := w.comm.step op }

def World.step (w : World) : Op → World
  | .notifyUnavailable t now => notifyUnavailable t now w
  | .notifyAvailable t nbreak pick => notifyAvailable t nbreak pick w
  | .checkBreaker now nbreak pick => checkBreaker now nbreak pick w
  | .acquire waitTimeout => w.schedule (.groupAcquire w.router.group waitTimeout)
  | .resume i => w.schedule (.groupResume w.router.group i)
  | .expire i => w.schedule (.groupExpire w.router.group i)
  | .release t pick => w.schedule (.release t pick)

def run (ops : List Op) (w : World) : World := ops.foldl World.step w

end WorkflowModel.Manager.Route
