import Mathlib.Data.List.AList
import Mathlib.Data.Finset.Card

/-!
# The cache of least recently used values

A handle carries one value under its key. The cache counts the references to a handle: one of its own while the
handle is cached, and one for each `get` or `put` that returned the handle and was not released. A cached handle
is in the list `in_use_` if somebody else refers to it, and else in `not_use_`, oldest first.

Handles are known by the order of their creation, and a handle that was deleted is gone from the memory. A call
fails if an assertion does, if it follows a handle that is gone, or if it takes a handle out of a list that it is
not in. `deleted` lists what was given to the deleter.
-/

namespace WorkflowModel.Util

structure LRUHandle (K V : Type*) where
  key : K
  value : V
  ref : Int
  inCache : Bool
  deriving DecidableEq, Repr

structure LRUCache (K V : Type*) where
  maxSize : Nat
  size : Nat
  notUse : List Nat
  inUse : List Nat
  cacheMap : AList fun _ : K => Nat
  handles : Nat → Option (LRUHandle K V)
  count : Nat
  deleted : List (Nat × V)

namespace LRUCache

variable {K V : Type*}

def empty : LRUCache K V :=
  { maxSize := 0, size := 0, notUse := [], inUse := [], cacheMap := ∅, handles := fun _ => none, count := 0,
    deleted := [] }

def setHandle (c : LRUCache K V) (e : Nat) (h : LRUHandle K V) : LRUCache K V :=
  { c with handles := Function.update c.handles e (some h) }

/-- The neighbours of the node are linked to each other, whichever list it is in. -/
def listRemove (c : LRUCache K V) (e : Nat) : Option (LRUCache K V) :=
  if e ∈ c.notUse then some { c with notUse := c.notUse.erase e }
  else if e ∈ c.inUse then some { c with inUse := c.inUse.erase e }
  else none

def appendNotUse (c : LRUCache K V) (e : Nat) : LRUCache K V := { c with notUse := c.notUse ++ [e] }

def appendInUse (c : LRUCache K V) (e : Nat) : LRUCache K V := { c with inUse := c.inUse ++ [e] }

def addRef (c : LRUCache K V) (e : Nat) : Option (LRUCache K V) := do
  let h ← c.handles e
  let c ← if h.inCache = true ∧ h.ref = 1 then do
      let c ← c.listRemove e
      some (c.appendInUse e)
    else some c
  some (c.setHandle e { h with ref := h.ref + 1 })

def unref (c : LRUCache K V) (e : Nat) : Option (LRUCache K V) := do
  let h ← c.handles e
  if 0 < h.ref then
    let h := { h with ref := h.ref - 1 }
    let c := c.setHandle e h
    if h.ref = 0 then
      if h.inCache = true then none
      else some { c with handles := Function.update c.handles e none, deleted := c.deleted ++ [(e, h.value)] }
    else if h.inCache = true ∧ h.ref = 1 then do
      let c ← c.listRemove e
      some (c.appendNotUse e)
    else some c
  else none

def eraseNode (c : LRUCache K V) (e : Nat) : Option (LRUCache K V) := do
  let h ← c.handles e
  if h.inCache = true then
    let c ← c.listRemove e
    let c := c.setHandle e { h with inCache := false }
    unref { c with size := c.size - 1 } e
  else none

variable [DecidableEq K]

/-- The loop of `prune` and the one at the end of `put`: as long as `goOn` says so, the handle that has been
out of use for the longest time is taken out of the cache. -/
def evict (goOn : LRUCache K V → Bool) : Nat → LRUCache K V → Option (LRUCache K V)
  | fuel, c =>
    if goOn c then
      match fuel, c.notUse with
      | _, [] => some c
      | 0, _ :: _ => none
      | fuel + 1, e :: _ => do
          let h ← c.handles e
          if h.ref = 1 then
            let c ← eraseNode { c with cacheMap := c.cacheMap.erase h.key } e
            evict goOn fuel c
          else none
    else some c

def setMaxSize (c : LRUCache K V) (maxSize : Nat) : LRUCache K V := { c with maxSize := maxSize }

def prune (c : LRUCache K V) : Option (LRUCache K V) := c.evict (fun _ => true) c.notUse.length

def release (c : LRUCache K V) : Option Nat → Option (LRUCache K V)
  | some handle => c.unref handle
  | none => some c

def get (c : LRUCache K V) (key : K) : Option (LRUCache K V × Option Nat) :=
  match c.cacheMap.lookup key with
  | some e => do
      let c ← c.addRef e
      some (c, some e)
  | none => some (c, none)

/-- The new handle with its own reference and the one of the caller takes the place of the old one. -/
def putCached (c : LRUCache K V) (key : K) (value : V) : Option (LRUCache K V) := do
  let e := c.count
  let c := { c with size := c.size + 1, count := c.count + 1 }
  let c := (c.setHandle e { key := key, value := value, ref := 2, inCache := true }).appendInUse e
  match c.cacheMap.lookup key with
  | some old => do
      let c ← c.eraseNode old
      some { c with cacheMap := c.cacheMap.insert key e }
  | none => some { c with cacheMap := c.cacheMap.insert key e }

/-- The new handle is only returned to the caller. -/
def putAside (c : LRUCache K V) (key : K) (value : V) : LRUCache K V :=
  { c with count := c.count + 1 }.setHandle c.count { key := key, value := value, ref := 1, inCache := false }

/-- The end of `put`: with a bound, handles out of use are evicted while there are too many. -/
def evictOver (c : LRUCache K V) : Option (LRUCache K V) :=
  if c.maxSize > 0 then c.evict (fun c => c.size > c.maxSize) c.notUse.length else some c

def put (c : LRUCache K V) (key : K) (value : V) : Option (LRUCache K V × Nat) := do
  let e := c.count
  let c ← if c.maxSize = 0 ∨ c.size < c.maxSize then c.putCached key value else some (c.putAside key value)
  let c ← c.evictOver
  some (c, e)

def del (c : LRUCache K V) (key : K) : Option (LRUCache K V) :=
  match c.cacheMap.lookup key with
  | some node => eraseNode { c with cacheMap := c.cacheMap.erase key } node
  | none => some c

inductive Op (K V : Type*) where
  | put (key : K) (value : V)
  | get (key : K)
  | del (key : K)
  | release (handle : Option Nat)
  | prune
  | setMaxSize (maxSize : Nat)
  deriving DecidableEq, Repr

end LRUCache

/-- A cache and its callers. `held` has a handle once for each time it was returned and not released, `made` what
each handle was made of, and `lastPut` the handle that the latest `put` of a key returned. -/
structure CacheUse (K V : Type*) where
  cache : LRUCache K V
  held : List Nat
  made : List (K × V)
  lastPut : K → Option Nat

namespace CacheUse

open LRUCache

variable {K V : Type*}

def start : CacheUse K V := { cache := .empty, held := [], made := [], lastPut := fun _ => none }

def Allowed (u : CacheUse K V) : Op K V → Prop
  | .release (some handle) => handle ∈ u.held
  | _ => True

variable [DecidableEq K]

def step (u : CacheUse K V) : Op K V → Option (CacheUse K V)
  | .put key value => do
      let (c, e) ← u.cache.put key value
      some { cache := c, held := e :: u.held, made := u.made ++ [(key, value)],
             lastPut := Function.update u.lastPut key (some e) }
  | .get key => do
      let (c, e) ← u.cache.get key
      some { u with cache := c, held := e.toList ++ u.held }
  | .del key => do
      let c ← u.cache.del key
      some { u with cache := c }
  | .release handle => do
      let c ← u.cache.release handle
      some { u with cache := c, held := handle.elim u.held u.held.erase }
  | .prune => do
      let c ← u.cache.prune
      some { u with cache := c }
  | .setMaxSize maxSize => some { u with cache := u.cache.setMaxSize maxSize }

/-- The calls that led to a state, each with the state that it found. -/
inductive Run : List (CacheUse K V × Op K V) → CacheUse K V → Prop where
  | start : Run [] start
  | step {history : List (CacheUse K V × Op K V)} {u u' : CacheUse K V} {op : Op K V} :
      Run history u → u.Allowed op → u.step op = some u' → Run (history ++ [(u, op)]) u'

instance (u : CacheUse K V) : (op : Op K V) → Decidable (u.Allowed op)
  | .release (some handle) => inferInstanceAs (Decidable (handle ∈ u.held))
  | .release none | .put .. | .get _ | .del _ | .prune | .setMaxSize _ => inferInstanceAs (Decidable True)

/-- The calls one after the other, as far as they are allowed. -/
def execFrom (history : List (CacheUse K V × Op K V)) (u : CacheUse K V) :
    List (Op K V) → Option (List (CacheUse K V × Op K V) × CacheUse K V)
  | [] => some (history, u)
  | op :: ops =>
      if u.Allowed op then
        match u.step op with
        | some u' => execFrom (history ++ [(u, op)]) u' ops
        | none => none
      else none

def exec (ops : List (Op K V)) : Option (List (CacheUse K V × Op K V) × CacheUse K V) := execFrom [] start ops

end CacheUse

end WorkflowModel.Util
