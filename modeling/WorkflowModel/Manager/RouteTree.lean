import WorkflowModel.Kernel.RBTree
import WorkflowModel.Manager.RouteManager

/-!
# The tree of the route manager

`RouteManager::get` with its tree in memory: the routers are linked by their nodes `rb`, and `rb_link_node`
and `rb_insert_color` of the kernel put a new one into the tree. The node of a router has its number as the
address. A loop over the tree is given more rounds than it can take.
-/

namespace WorkflowModel.Manager.RouteManager

open WorkflowModel Kernel SearchTree

/-- The manager with the nodes of its routers. -/
structure Table where
  cache : RBTree.Memory
  routers : Nat → Entry
  next : Nat
  nextTarget : Nat
  comm : CommScheduler.State

namespace Table

/-- The manager with a tree of routers in place of their nodes. -/
def withCache (cache : BinTree Nat) (m : Table) : State :=
  { cache := cache, routers := m.routers, next := m.next, nextTarget := m.nextTarget, comm := m.comm }

def modifyRouter (id : Nat) (f : Route.World → Route.World) (m : Table) : Table :=
  let w := f { router := (m.routers id).router, comm := m.comm }
  { m with routers := Function.update m.routers id { m.routers id with router := w.router }, comm := w.comm }

/-- The new router is linked where the search has ended. -/
def link (fuel md5 : Nat) (w : Route.World) (object : RequestObject) (q : Request) (parent : Option Nat)
    (place : RBTree.Link) (m : Table) : Option Table := do
  let cache ← RBTree.rbInsertColor fuel m.next (RBTree.rbLinkNode m.next parent place m.cache)
  return { cache := cache
           routers := Function.update m.routers m.next
             { router := w.router, requestObject := object, md5_16 := md5 }
           next := m.next + 1
           nextTarget := m.nextTarget + q.addrinfo.length
           comm := w.comm }

def get (fuel : Nat) (lib : Library) (q : Request) (m : Table) : Option (Table × Int × RouteResult) :=
  if q.addrinfo = [] then some (m, -1, .clear)
  else do
    let md5 := generateKey lib q.type q.addrinfo q.otherInfo
    match ← RBTree.descend (fun id => compare md5 (m.routers id).md5_16) fuel none .root m.cache with
    | .found id =>
        return (m.modifyRouter id (Route.checkBreaker q.now q.nbreak q.pick), 0,
          { cookie := some id, requestObject := some (m.routers id).requestObject })
    | .free parent place =>
        match initRouter q (m.withCache .leaf) with
        | some (w, object) => do
            let linked ← m.link fuel md5 w object q parent place
            return (linked, 0, { cookie := some m.next, requestObject := some object })
        | none => return (m, -1, .clear)

def step (fuel : Nat) (lib : Library) (m : Table) : Call → Option Table
  | .get q => (get fuel lib q m).map Prod.fst
  | .router cookie op => some (m.modifyRouter cookie fun w => w.step op)

def run (fuel : Nat) (lib : Library) (calls : List Call) (m : Table) : Option Table :=
  calls.foldlM (step fuel lib) m

/-- No router has been made. The memory is as it may be. -/
def init (comm : CommScheduler.State) (nodes : Nat → RBTree.RbNode) : Table :=
  { cache := { node := nodes, root := none }, routers := fun _ => noRouter, next := 0, nextTarget := 0, comm := comm }

end Table

end WorkflowModel.Manager.RouteManager
