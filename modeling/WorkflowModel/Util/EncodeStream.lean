import WorkflowModel.CString
import WorkflowModel.Lib.Cells
import Mathlib.Logic.Function.Basic

/-!
# `EncodeStream`

`EncodeStream` collects the pieces of a message as `iovec`s for `writev`. Each piece has a node in a
list, which holds a copy of the bytes or only a pointer to those of the caller. When the array of
`iovec`s is full, `check_merge` puts neighbouring pieces together.

A node that was deleted cannot be accessed any more: a step that does has no result. The array is as
long as the memory behind `vec_`, so a write behind its end is seen as such.
-/

namespace WorkflowModel.Util

open WorkflowModel

/-- Where the bytes of a piece begin: in memory of the caller, which stays as it is, or in the string of
a node. -/
inductive Base where
  | caller (memory : Bytes)
  | str (node : Nat)
  deriving DecidableEq

structure Iovec where
  base : Base
  len : Nat
  deriving DecidableEq

/-- `__buff`, without its links. -/
structure Buff where
  data : Base
  len : Nat
  str : Bytes
  deriving DecidableEq

/-- The bytes at a pointer; none when they are not all there. -/
def bytesAt (heap : Cells Buff) (base : Base) (len : Nat) : Option Bytes := do
  let memory ← match base with
    | .caller memory => some memory
    | .str node => (heap.read node).map Buff.str
  if len ≤ memory.length then some (memory.take len) else none

/-- `vec i` is what was last written to `vec_[i]`, if anything was. `bufferList` has the nodes in the
order of the list. -/
structure EncodeStream where
  vec : Nat → Option Iovec
  bytes : Nat
  max : Nat
  size : Nat
  heap : Cells Buff
  bufferList : List Nat

/-- `EncodeStream(vectors, max)`. -/
def EncodeStream.init (max : Nat) : EncodeStream :=
  { vec := fun _ => none, bytes := 0, max := max, size := 0, heap := [], bufferList := [] }

/-- `vec_[size_].iov_base = base; vec_[size_++].iov_len = len`. -/
def EncodeStream.push (base : Base) (len : Nat) (s : EncodeStream) : EncodeStream :=
  { s with vec := Function.update s.vec s.size (some ⟨base, len⟩), size := s.size + 1 }

/-- One round of the first loop of `check_merge`. Both `x` and `y` are `list_entry(pos, ..)`. -/
def mergeRound (pos next : Nat) (s : EncodeStream) : Option EncodeStream := do
  let x ← s.heap.read pos
  let str ← if x.str = [] then bytesAt s.heap x.data x.len else some x.str
  let heap ← s.heap.write pos { x with str := str }
  let y ← heap.read pos
  let more ← bytesAt heap y.data y.len
  let heap ← heap.write pos { data := .str pos, len := (str ++ more).length, str := str ++ more }
  let bufferList := s.bufferList.erase next
  let heap ← heap.delete pos
  let x ← heap.read pos
  return { s with heap := heap, bufferList := bufferList }.push x.data x.len

/-- The first loop, over the nodes from `pos` on, and the nodes that it leaves to the second. -/
def mergePairs : List Nat → EncodeStream → Option (List Nat × EncodeStream)
  | pos :: next :: rest, s => do mergePairs rest (← mergeRound pos next s)
  | rest, s => some (rest, s)

/-- The second loop. -/
def pushRest : List Nat → EncodeStream → Option EncodeStream
  | [], s => some s
  | pos :: rest, s => do
      let x ← s.heap.read pos
      pushRest rest (s.push x.data x.len)

def EncodeStream.checkMerge (s : EncodeStream) : Option EncodeStream :=
  if s.max ≤ s.size then do
    let (rest, s) ← mergePairs s.bufferList { s with size := 0 }
    pushRest rest s
  else
    some s

/-- What `append_copy` and `append_nocopy` do with the new node. -/
def EncodeStream.appendBuff (p : Buff) (s : EncodeStream) : Option EncodeStream := do
  let added := { s with
    heap := s.heap.create p
    bufferList := s.bufferList ++ [s.heap.fresh] }
  let merged ← (added.push p.data p.len).checkMerge
  return { merged with bytes := sizeAdd merged.bytes p.len }

/-- `append_copy(data, len)`, with `memory` from `data` on. -/
def EncodeStream.appendCopy (memory : Bytes) (len : Nat) (s : EncodeStream) :
    Option EncodeStream :=
  if len ≠ 0 then
    s.appendBuff { data := .str s.heap.fresh, len := len, str := memory.take len }
  else
    some s

def EncodeStream.appendNocopy (memory : Bytes) (len : Nat) (s : EncodeStream) :
    Option EncodeStream :=
  if len ≠ 0 then s.appendBuff { data := .caller memory, len := len, str := [] } else some s

/-- `std::to_string` of an `int64_t`. -/
def toDecimal (value : Int64) : Bytes :=
  if value.toInt < 0 then 45 :: decimal value.toInt.natAbs else decimal value.toInt.natAbs

/-- The calls, each with what lies in memory from its pointer on. A `std::string` and a pointer with a
length are the bytes themselves. -/
inductive Append where
  | copyChars (memory : Bytes)
  | copy (data : Bytes)
  | copyString (data : Bytes)
  | nocopyChars (memory : Bytes)
  | nocopy (data : Bytes)
  | nocopyString (data : Bytes)
  | putChars (memory : Bytes)
  | putString (data : Bytes)
  | putPair (data : Bytes)
  | putInt (value : Int64)
  deriving DecidableEq

def strlen (memory : Bytes) : Nat := (cString memory).length

def Append.run : Append → EncodeStream → Option EncodeStream
  | .copyChars memory, s => s.appendCopy memory (strlen memory)
  | .copy data, s => s.appendCopy data data.length
  | .copyString data, s => s.appendCopy data data.length
  | .nocopyChars memory, s => s.appendNocopy memory (strlen memory)
  | .nocopy data, s => s.appendNocopy data data.length
  | .nocopyString data, s => s.appendNocopy data data.length
  | .putChars memory, s => s.appendNocopy memory (strlen memory)
  | .putString data, s => s.appendNocopy data data.length
  | .putPair data, s => s.appendNocopy data data.length
  | .putInt value, s => s.appendCopy (toDecimal value) (toDecimal value).length

def runAppends : List Append → EncodeStream → Option EncodeStream
  | [], s => some s
  | call :: calls, s => do runAppends calls (← call.run s)

/-- The bytes of `vec_[0 .. size_)`, one behind the other. -/
def EncodeStream.contents (s : EncodeStream) : Option Bytes :=
  ((List.range s.size).mapM fun i => do
    let v ← s.vec i
    bytesAt s.heap v.base v.len).map List.flatten

end WorkflowModel.Util
