import WorkflowModel.Lib.LinkedRing

/-!
# Doubly linked lists

A `list_head` is an address with two pointers, and it may be the head of a list or stand in an entry of one. A new
entry and an entry that was deleted have whatever pointers they have.

The functions that take two known neighbours write the pointers one by one, in the order of the source. A loop over a
list has a bound on its rounds, since nothing but the pointers ends it.
-/

namespace WorkflowModel.Kernel.ListHead

open LinkedRing

variable {α : Type*} [DecidableEq α]

def initListHead (m : Links α) (list : α) : Links α := (m.setNext list list).setPrev list list

/-- `__list_add`. -/
def addBetween (m : Links α) (node prev next : α) : Links α :=
  (((m.setPrev next node).setNext node next).setPrev node prev).setNext prev node

def listAdd (m : Links α) (node head : α) : Links α := addBetween m node head (m.next head)

def listAddTail (m : Links α) (node head : α) : Links α := addBetween m node (m.prev head) head

/-- `__list_del`. -/
def delBetween (m : Links α) (prev next : α) : Links α := (m.setPrev next prev).setNext prev next

def listDel (m : Links α) (entry : α) : Links α := delBetween m (m.prev entry) (m.next entry)

def listMove (m : Links α) (node head : α) : Links α := listAdd (delBetween m (m.prev node) (m.next node)) node head

def listMoveTail (m : Links α) (node head : α) : Links α :=
  listAddTail (delBetween m (m.prev node) (m.next node)) node head

def listEmpty (m : Links α) (head : α) : Bool := m.next head = head

/-- `__list_splice`. -/
def spliceBetween (m : Links α) (list head : α) : Links α :=
  let first := m.next list
  let last := m.prev list
  let at' := m.next head
  (((m.setPrev first head).setNext head first).setNext last at').setPrev at' last

def listSplice (m : Links α) (list head : α) : Links α :=
  if listEmpty m list = false then spliceBetween m list head else m

def listSpliceInit (m : Links α) (list head : α) : Links α :=
  if listEmpty m list = false then initListHead (spliceBetween m list head) list else m

/-- The loop of `list_for_each`, from `pos` on: the positions it goes through. -/
def forEachLoop (m : Links α) (head : α) : Nat → α → Option (List α)
  | fuel, pos =>
      if pos = head then some []
      else
        match fuel with
        | 0 => none
        | fuel + 1 => (forEachLoop m head fuel (m.next pos)).map fun rest => pos :: rest

def forEach (m : Links α) (head : α) (fuel : Nat) : Option (List α) := forEachLoop m head fuel (m.next head)

/-- The loop of `list_for_each_safe`, from `pos` and the position `n` that was read before the body runs. The body
may change the lists. -/
def forEachSafeLoop (body : α → Links α → Links α) (head : α) : Nat → Links α → α → α → Option (Links α × List α)
  | fuel, m, pos, n =>
      if pos = head then some (m, [])
      else
        match fuel with
        | 0 => none
        | fuel + 1 =>
            let m := body pos m
            (forEachSafeLoop body head fuel m n (m.next n)).map fun result => (result.1, pos :: result.2)

def forEachSafe (body : α → Links α → Links α) (m : Links α) (head : α) (fuel : Nat) : Option (Links α × List α) :=
  let pos := m.next head
  forEachSafeLoop body head fuel m pos (m.next pos)

/-- What the body of such a loop does with the position: the loops of the source leave it, delete it, or move it
to another list. -/
inductive Fate (α : Type*) where
  | keep
  | del
  | moveTail (head : α)
  deriving DecidableEq, Repr

def Fate.body (fate : α → Fate α) (pos : α) (m : Links α) : Links α :=
  match fate pos with
  | .keep => m
  | .del => listDel m pos
  | .moveTail head => listMoveTail m pos head

inductive Op (α : Type*) where
  | init (list : α)
  | add (node head : α)
  | addTail (node head : α)
  | del (entry : α)
  | move (node head : α)
  | moveTail (node head : α)
  | splice (list head : α)
  | spliceInit (list head : α)
  deriving DecidableEq, Repr

def step (m : Links α) : Op α → Links α
  | .init list => initListHead m list
  | .add node head => listAdd m node head
  | .addTail node head => listAddTail m node head
  | .del entry => listDel m entry
  | .move node head => listMove m node head
  | .moveTail node head => listMoveTail m node head
  | .splice list head => listSplice m list head
  | .spliceInit list head => listSpliceInit m list head

def run (m : Links α) (ops : List (Op α)) : Links α := ops.foldl step m

/-- The lists that there are, by their heads. -/
abbrev Lists (α : Type*) := α → Option (List α)

namespace Lists

variable (lists : Lists α)

/-- The address is neither a head nor in a list. -/
def Free (x : α) : Prop := lists x = none ∧ ∀ head nodes, lists head = some nodes → x ∉ nodes

def put (head : α) (nodes : List α) : Lists α := Function.update lists head (some nodes)

/-- The entry is taken out of the list that it is in. -/
def erase (entry : α) : Lists α := fun head => (lists head).map (List.erase · entry)

/-- The nodes in front of those of the list, or behind them. -/
def prepend (head : α) (nodes : List α) : Lists α := lists.put head (nodes ++ (lists head).getD [])

def append (head : α) (nodes : List α) : Lists α := lists.put head ((lists head).getD [] ++ nodes)

/-- What the callers of an operation see to. A list that is spliced without being initialized is not a list
any more, unless it was empty. -/
def Allowed : Op α → Prop
  | .init list => ∀ head nodes, lists head = some nodes → list ∉ nodes
  | .add node head | .addTail node head => lists.Free node ∧ lists head ≠ none ∧ node ≠ head
  | .del entry => ∃ head nodes, lists head = some nodes ∧ entry ∈ nodes
  | .move node head | .moveTail node head =>
      (∃ h nodes, lists h = some nodes ∧ node ∈ nodes) ∧ lists head ≠ none
  | .splice list head | .spliceInit list head => lists list ≠ none ∧ lists head ≠ none ∧ list ≠ head

def step : Op α → Lists α
  | .init list => lists.put list []
  | .add node head => lists.prepend head [node]
  | .addTail node head => lists.append head [node]
  | .del entry => lists.erase entry
  | .move node head => (lists.erase node).prepend head [node]
  | .moveTail node head => (lists.erase node).append head [node]
  | .splice list head =>
      if lists list = some [] then lists
      else Function.update (lists.prepend head ((lists list).getD [])) list none
  | .spliceInit list head => (lists.prepend head ((lists list).getD [])).put list []

def run (ops : List (Op α)) : Lists α := ops.foldl step lists

/-- Each operation is allowed when its turn comes. -/
def AllowedRun (lists : Lists α) : List (Op α) → Prop
  | [] => True
  | op :: ops => lists.Allowed op ∧ AllowedRun (lists.step op) ops

/-- The bodies of a loop over these positions. -/
def loop (fate : α → Fate α) (nodes : List α) : Lists α :=
  nodes.foldl
    (fun lists pos =>
      match fate pos with
      | .keep => lists
      | .del => lists.step (.del pos)
      | .moveTail head => lists.step (.moveTail pos head)) lists

end Lists

end WorkflowModel.Kernel.ListHead
